import ContractKit.Value.Order
import Mathlib.Data.List.InsertIdx
import Mathlib.Data.List.Perm.Basic

/-!
# `Proofs/Value/Sorted.lean`: arranging by a comparison that may have no answer

`sortedBy?` finds a run at the front and inserts the other items by halving. Whatever the comparison
answers, the result is a rearrangement (`perm_of_sortedBy?`): that much is needed even where sets are
arranged by inclusion. Where the comparison is a strict weak order (`StrictOn`) it always has a result,
and that is in order (`exists_sortedBy?`). A list in order is left as it is (`sortedBy?_of_ordered`).

The order is stated by what `less` denies: `InOrder less a b` says that `b` is not less than `a`.
-/

set_option autoImplicit false

namespace ContractKit.Value

variable {α : Type}

/-- The second item is not less than the first. -/
def InOrder (less : α → α → Option Bool) (a b : α) : Prop := less b a = some false

/-- Among items with a property a comparison always has an answer, and its answers are those of a
strict weak order. -/
structure StrictOn (less : α → α → Option Bool) (P : α → Prop) : Prop where
  answers : ∀ {a b}, P a → P b → less a b = some true ∨ less a b = some false
  asymm : ∀ {a b}, P a → P b → less a b = some true → InOrder less a b
  trans : ∀ {a b c}, P a → P b → P c → InOrder less a b → InOrder less b c → InOrder less a c

namespace StrictOn

variable {less : α → α → Option Bool} {P : α → Prop}

/-- Less than something that is not greater than a third item is less than that. -/
theorem less_of_less_of_inOrder (h : StrictOn less P) {a b c : α} (ha : P a) (hb : P b) (hc : P c)
    (hab : less a b = some true) (hbc : InOrder less b c) : less a c = some true := by
  rcases h.answers ha hc with hac | hca
  · exact hac
  · -- otherwise `b ≤ c ≤ a`, against `a < b`
    have hba : InOrder less b a := h.trans hb hc ha hbc hca
    rw [InOrder, hab] at hba
    cases hba

theorem less_trans (h : StrictOn less P) {a b c : α} (ha : P a) (hb : P b) (hc : P c)
    (hab : less a b = some true) (hbc : less b c = some true) : less a c = some true :=
  h.less_of_less_of_inOrder ha hb hc hab (h.asymm hb hc hbc)

end StrictOn

/-! ## Finding the place -/

theorem placeOf?_le {less : α → α → Option Bool} {sorted : Array α} {x : α} :
    ∀ {fuel low high place : Nat}, low ≤ high → placeOf? less sorted x fuel low high = some place →
      place ≤ high
  | 0, low, high, place, hle, h => by
    cases h
    exact hle
  | fuel + 1, low, high, place, hle, h => by
    rw [placeOf?] at h
    split at h
    · rename_i hlt
      dsimp only at h
      split at h
      · cases h
        exact hle
      · rename_i pivot _
        cases hx : less x pivot with
        | none => rw [hx] at h; cases h
        | some r =>
          rw [hx] at h
          cases r with
          | true =>
            have := placeOf?_le (by omega) (show placeOf? less sorted x fuel low _ = some place from h)
            omega
          | false =>
            exact placeOf?_le (by omega) (show placeOf? less sorted x fuel _ high = some place from h)
    · cases h
      exact hle

/-- What is known while a place is looked for: the items before the range are not greater than the
new one, and the items after it are greater. -/
structure Between (less : α → α → Option Bool) (sorted : Array α) (x : α) (low high : Nat) : Prop where
  before : ∀ {i a}, i < low → sorted[i]? = some a → InOrder less a x
  after : ∀ {i a}, high ≤ i → sorted[i]? = some a → less x a = some true

/-- Items of an array in order are in order wherever they stand. -/
theorem eq_or_inOrder_of_le {less : α → α → Option Bool} {sorted : Array α}
    (hsorted : sorted.toList.Pairwise (InOrder less)) {i j : Nat} {a b : α} (hij : i ≤ j)
    (hi : sorted[i]? = some a) (hj : sorted[j]? = some b) : a = b ∨ InOrder less a b := by
  rw [← Array.getElem?_toList] at hi hj
  rcases Nat.lt_or_eq_of_le hij with hij | rfl
  · right
    obtain ⟨hi', rfl⟩ := List.getElem?_eq_some_iff.mp hi
    obtain ⟨hj', rfl⟩ := List.getElem?_eq_some_iff.mp hj
    exact List.pairwise_iff_getElem.mp hsorted i j hi' hj' hij
  · left
    rw [hi, Option.some.injEq] at hj
    exact hj

section Halving

variable {less : α → α → Option Bool} {P : α → Prop} {sorted : Array α} {x pivot : α}
  {low high middle : Nat}

/-- A pivot that is greater than the new item says so of all the items behind it. -/
theorem Between.low_half (hless : StrictOn less P) (hx : P x)
    (hP : ∀ {i : Nat} {a : α}, sorted[i]? = some a → P a)
    (hsorted : sorted.toList.Pairwise (InOrder less))
    (hpivot : sorted[middle]? = some pivot) (hgreater : less x pivot = some true)
    (h : Between less sorted x low high) : Between less sorted x low middle := by
  refine ⟨h.before, fun {i a} hi ha => ?_⟩
  rcases eq_or_inOrder_of_le hsorted hi hpivot ha with rfl | hin
  · exact hgreater
  · exact hless.less_of_less_of_inOrder hx (hP hpivot) (hP ha) hgreater hin

/-- A pivot that is not greater than the new item says so of all the items before it. -/
theorem Between.high_half (hless : StrictOn less P) (hx : P x)
    (hP : ∀ {i : Nat} {a : α}, sorted[i]? = some a → P a)
    (hsorted : sorted.toList.Pairwise (InOrder less))
    (hpivot : sorted[middle]? = some pivot) (hnot : InOrder less pivot x)
    (h : Between less sorted x low high) : Between less sorted x (middle + 1) high := by
  refine ⟨fun {i a} hi ha => ?_, h.after⟩
  rcases eq_or_inOrder_of_le hsorted (Nat.le_of_lt_succ hi) ha hpivot with rfl | hin
  · exact hnot
  · exact hless.trans (hP ha) (hP hpivot) hx hin hnot

end Halving

/-- The place that is found splits the sorted items into those that are not greater than the new one
and those that are. The invariant is `Between`; halving keeps it because the items are in order. -/
theorem exists_placeOf? {less : α → α → Option Bool} {P : α → Prop} (hless : StrictOn less P)
    {sorted : Array α} {x : α} (hx : P x) (hP : ∀ a ∈ sorted.toList, P a)
    (hsorted : sorted.toList.Pairwise (InOrder less)) :
    ∀ {fuel low high : Nat}, high - low < fuel → low ≤ high → high ≤ sorted.size →
      Between less sorted x low high →
        ∃ place, placeOf? less sorted x fuel low high = some place ∧ place ≤ high ∧
          Between less sorted x place place
  | 0, low, high, hfuel, _, _, _ => absurd hfuel (by omega)
  | fuel + 1, low, high, hfuel, hle, hsize, hb => by
    rw [placeOf?]
    by_cases hlt : low < high
    · rw [if_pos hlt]
      have hmid : low + (high - low) / 2 < sorted.size := by omega
      have hget : sorted[low + (high - low) / 2]? = some sorted[low + (high - low) / 2] :=
        Array.getElem?_eq_getElem hmid
      have hitems : ∀ {i : Nat} {a : α}, sorted[i]? = some a → P a := by
        intro i a hi
        rw [← Array.getElem?_toList] at hi
        exact hP a (List.mem_of_getElem? hi)
      simp only [hget]
      rcases hless.answers hx (hitems hget) with hr | hr
      · obtain ⟨place, hplace, hhigh, hboth⟩ :=
          exists_placeOf? hless hx hP hsorted
            (show low + (high - low) / 2 - low < fuel by omega) (by omega) (by omega)
            (hb.low_half hless hx hitems hsorted hget hr)
        refine ⟨place, ?_, by omega, hboth⟩
        rw [hr]
        exact hplace
      · obtain ⟨place, hplace, hhigh, hboth⟩ :=
          exists_placeOf? hless hx hP hsorted
            (show high - (low + (high - low) / 2 + 1) < fuel by omega) (by omega) (by omega)
            (hb.high_half hless hx hitems hsorted hget hr)
        refine ⟨place, ?_, hhigh, hboth⟩
        rw [hr]
        exact hplace
    · rw [if_neg hlt]
      have : high = low := by omega
      subst this
      exact ⟨high, rfl, Nat.le_refl _, hb⟩

/-! ## Inserting -/

theorem toList_insertIdxIfInBounds {sorted : Array α} {place : Nat} {x : α}
    (h : place ≤ sorted.size) :
    (sorted.insertIdxIfInBounds place x).toList = sorted.toList.insertIdx place x := by
  unfold Array.insertIdxIfInBounds
  rw [dif_pos h, Array.toList_insertIdx]

theorem pairwise_insertIdx {R : α → α → Prop} {x : α} :
    ∀ {as : List α} {place : Nat}, as.Pairwise R → place ≤ as.length →
      (∀ {i a}, i < place → as[i]? = some a → R a x) →
      (∀ {i a}, place ≤ i → as[i]? = some a → R x a) → (as.insertIdx place x).Pairwise R
  | as, 0, has, _, _, hafter => by
    rw [List.insertIdx_zero]
    refine List.pairwise_cons.mpr ⟨fun a ha => ?_, has⟩
    obtain ⟨i, hi⟩ := List.getElem?_of_mem ha
    exact hafter (Nat.zero_le i) hi
  | [], place + 1, _, hle, _, _ => absurd hle (by simp)
  | b :: as, place + 1, has, hle, hbefore, hafter => by
    rw [List.insertIdx_succ_cons]
    obtain ⟨hb, has⟩ := List.pairwise_cons.mp has
    have hle' : place ≤ as.length := by simpa using hle
    refine List.pairwise_cons.mpr ⟨fun a ha => ?_, ?_⟩
    · rcases (List.mem_insertIdx hle').mp ha with rfl | ha
      · exact hbefore (i := 0) (Nat.succ_pos _) rfl
      · exact hb a ha
    · apply pairwise_insertIdx has hle'
      · intro i a hi ha
        exact hbefore (i := i + 1) (by omega) (by simpa using ha)
      · intro i a hi ha
        exact hafter (i := i + 1) (by omega) (by simpa using ha)

theorem perm_of_insertAll? {less : α → α → Option Bool} :
    ∀ {xs : List α} {sorted out : Array α}, insertAll? less xs sorted = some out →
      out.toList.Perm (sorted.toList ++ xs)
  | [], sorted, out, h => by
    cases h
    simp
  | x :: xs, sorted, out, h => by
    rw [insertAll?] at h
    cases hplace : placeOf? less sorted x (sorted.size + 1) 0 sorted.size with
    | none => rw [hplace] at h; cases h
    | some place =>
      rw [hplace] at h
      have hle := placeOf?_le (Nat.zero_le _) hplace
      have ih := perm_of_insertAll?
        (show insertAll? less xs (sorted.insertIdxIfInBounds place x) = some out from h)
      rw [toList_insertIdxIfInBounds hle] at ih
      refine ih.trans ?_
      have hins := List.perm_insertIdx x sorted.toList (show place ≤ sorted.toList.length by simpa)
      exact (hins.append_right xs).trans List.perm_middle.symm

theorem exists_insertAll? {less : α → α → Option Bool} {P : α → Prop} (hless : StrictOn less P) :
    ∀ {xs : List α} {sorted : Array α}, (∀ a ∈ xs, P a) → (∀ a ∈ sorted.toList, P a) →
      sorted.toList.Pairwise (InOrder less) →
        ∃ out, insertAll? less xs sorted = some out ∧ out.toList.Pairwise (InOrder less)
  | [], sorted, _, _, hsorted => ⟨sorted, rfl, hsorted⟩
  | x :: xs, sorted, hxs, hP, hsorted => by
    have hx : P x := hxs x (by simp)
    -- the place is between the ends at first, and halving keeps it between
    have hb : Between less sorted x 0 sorted.size := by
      refine ⟨fun {i a} hi _ => absurd hi (by omega), fun {i a} hi ha => ?_⟩
      rw [Array.getElem?_eq_none hi] at ha
      cases ha
    obtain ⟨place, hplace, hle, hboth⟩ := exists_placeOf? hless hx hP hsorted
      (show sorted.size - 0 < sorted.size + 1 by omega) (Nat.zero_le _) (Nat.le_refl _) hb
    have hlist := toList_insertIdxIfInBounds (x := x) hle
    have hle' : place ≤ sorted.toList.length := by simpa using hle
    have hP' : ∀ a ∈ (sorted.insertIdxIfInBounds place x).toList, P a := by
      intro a ha
      rw [hlist, List.mem_insertIdx hle'] at ha
      rcases ha with rfl | ha
      · exact hx
      · exact hP a ha
    have hsorted' : (sorted.insertIdxIfInBounds place x).toList.Pairwise (InOrder less) := by
      rw [hlist]
      apply pairwise_insertIdx hsorted hle'
      · intro i a hi ha
        rw [Array.getElem?_toList] at ha
        exact hboth.before hi ha
      · intro i a hi ha
        have hmem := List.mem_of_getElem? ha
        rw [Array.getElem?_toList] at ha
        exact hless.asymm hx (hP a hmem) (hboth.after hi ha)
    obtain ⟨out, hout, hpair⟩ :=
      exists_insertAll? hless (fun a ha => hxs a (List.mem_cons_of_mem x ha)) hP' hsorted'
    refine ⟨out, ?_, hpair⟩
    rw [insertAll?, hplace]
    exact hout

/-! ## The runs at the front -/

theorem exists_ascendingRun? {less : α → α → Option Bool} {P : α → Prop} (hless : StrictOn less P) :
    ∀ {xs : List α} {x : α}, P x → (∀ a ∈ xs, P a) →
      ∃ n, ascendingRun? less x xs = some n ∧ (x :: xs.take n).Pairwise (InOrder less)
  | [], x, _, _ => ⟨0, rfl, by simp⟩
  | y :: xs, x, hx, hxs => by
    have hy : P y := hxs y (by simp)
    have hrest : ∀ a ∈ xs, P a := fun a ha => hxs a (by simp [ha])
    rw [ascendingRun?]
    rcases hless.answers hy hx with hr | hr
    · rw [hr]
      exact ⟨0, rfl, by simp⟩
    · obtain ⟨n, hn, hpair⟩ := exists_ascendingRun? hless hy hrest
      refine ⟨n + 1, by rw [hr, hn]; rfl, ?_⟩
      rw [List.take_succ_cons]
      refine List.pairwise_cons.mpr ⟨fun a ha => ?_, hpair⟩
      rcases List.mem_cons.mp ha with rfl | ha
      · exact hr
      · have hya := (List.pairwise_cons.mp hpair).1 a ha
        exact hless.trans hx hy (hrest a (List.mem_of_mem_take ha)) hr hya

theorem exists_descendingRun? {less : α → α → Option Bool} {P : α → Prop}
    (hless : StrictOn less P) :
    ∀ {xs : List α} {x : α}, P x → (∀ a ∈ xs, P a) →
      ∃ n, descendingRun? less x xs = some n ∧
        (x :: xs.take n).Pairwise (fun a b => less b a = some true)
  | [], x, _, _ => ⟨0, rfl, by simp⟩
  | y :: xs, x, hx, hxs => by
    have hy : P y := hxs y (by simp)
    have hrest : ∀ a ∈ xs, P a := fun a ha => hxs a (by simp [ha])
    rw [descendingRun?]
    rcases hless.answers hy hx with hr | hr
    · obtain ⟨n, hn, hpair⟩ := exists_descendingRun? hless hy hrest
      refine ⟨n + 1, by rw [hr, hn]; rfl, ?_⟩
      rw [List.take_succ_cons]
      refine List.pairwise_cons.mpr ⟨fun a ha => ?_, hpair⟩
      rcases List.mem_cons.mp ha with rfl | ha
      · exact hr
      · have hya := (List.pairwise_cons.mp hpair).1 a ha
        exact hless.less_trans (hrest a (List.mem_of_mem_take ha)) hy hx hya hr
    · rw [hr]
      exact ⟨0, rfl, by simp⟩

theorem ascendingRun?_of_ordered {less : α → α → Option Bool} :
    ∀ {xs : List α} {x : α}, (x :: xs).Pairwise (InOrder less) →
      ascendingRun? less x xs = some xs.length
  | [], _, _ => rfl
  | y :: xs, x, h => by
    obtain ⟨hx, hxs⟩ := List.pairwise_cons.mp h
    have hr : less y x = some false := hx y (by simp)
    rw [ascendingRun?, hr, ascendingRun?_of_ordered hxs]
    rfl

/-! ## Arranging -/

/-- **Whatever the comparison answers, the result is a rearrangement.** No order is asked for, so it
holds of members that are ordered in part only, as sets are by inclusion. -/
theorem perm_of_sortedBy? {less : α → α → Option Bool} :
    ∀ {xs ys : List α}, sortedBy? less xs = some ys → ys.Perm xs
  | [], ys, h => by
    cases h
    exact List.Perm.refl _
  | [x], ys, h => by
    cases h
    exact List.Perm.refl _
  -- the run at the front is kept or reversed, and the rest is inserted
  | x :: y :: rest, ys, h => by
    rw [sortedBy?] at h
    cases hr : less y x with
    | none => rw [hr] at h; cases h
    | some r =>
      rw [hr] at h
      cases r with
      | true =>
        cases hn : descendingRun? less y rest with
        | none => simp [hn] at h
        | some n =>
          simp only [hn, Option.pure_def, Option.bind_eq_bind, Option.bind_some, if_true] at h
          obtain ⟨out, hout, hys⟩ := Option.bind_eq_some_iff.mp h
          cases hys
          refine (perm_of_insertAll? hout).trans ?_
          refine ((List.reverse_perm _).append_right _).trans ?_
          simp
      | false =>
        cases hn : ascendingRun? less y rest with
        | none => simp [hn] at h
        | some n =>
          simp only [hn, Option.pure_def, Option.bind_eq_bind, Option.bind_some,
            Bool.false_eq_true, if_false] at h
          obtain ⟨out, hout, hys⟩ := Option.bind_eq_some_iff.mp h
          cases hys
          refine (perm_of_insertAll? hout).trans ?_
          simp

/-- **Under a strict weak order there is a result, and it is in order.** The run at the front is in
order, and each insertion by halving keeps it so. -/
theorem exists_sortedBy? {less : α → α → Option Bool} {P : α → Prop} (hless : StrictOn less P) :
    ∀ {xs : List α}, (∀ a ∈ xs, P a) →
      ∃ ys, sortedBy? less xs = some ys ∧ ys.Perm xs ∧ ys.Pairwise (InOrder less)
  | [], _ => ⟨[], rfl, List.Perm.refl _, List.Pairwise.nil⟩
  | [x], _ => ⟨[x], rfl, List.Perm.refl _, by simp⟩
  | x :: y :: rest, hxs => by
    have hx : P x := hxs x (by simp)
    have hy : P y := hxs y (by simp)
    have hrest : ∀ a ∈ rest, P a := fun a ha => hxs a (by simp [ha])
    have hdrop : ∀ n, ∀ a ∈ rest.drop n, P a := fun n a ha => hrest a (List.mem_of_mem_drop ha)
    have hfront : ∀ n, ∀ a ∈ x :: y :: rest.take n, P a := by
      intro n a ha
      rcases List.mem_cons.mp ha with rfl | ha
      · exact hx
      rcases List.mem_cons.mp ha with rfl | ha
      · exact hy
      exact hrest a (List.mem_of_mem_take ha)
    -- that the result is a rearrangement is known already, whatever run is found
    suffices h : ∃ out : Array α, sortedBy? less (x :: y :: rest) = some out.toList ∧
        out.toList.Pairwise (InOrder less) by
      obtain ⟨out, hout, hpair⟩ := h
      exact ⟨out.toList, hout, perm_of_sortedBy? hout, hpair⟩
    rcases hless.answers hy hx with hr | hr
    · obtain ⟨n, hn, hrun⟩ := exists_descendingRun? hless hy hrest
      have hall : (x :: y :: rest.take n).Pairwise (fun a b => less b a = some true) := by
        refine List.pairwise_cons.mpr ⟨fun a ha => ?_, hrun⟩
        rcases List.mem_cons.mp ha with rfl | ha
        · exact hr
        · exact hless.less_trans (hrest a (List.mem_of_mem_take ha)) hy hx
            ((List.pairwise_cons.mp hrun).1 a ha) hr
      -- a descending run is reversed, which is stable only because it descends strictly
      have hrev : (x :: y :: rest.take n).reverse.Pairwise (InOrder less) := by
        rw [List.pairwise_reverse]
        refine List.Pairwise.imp_of_mem (fun {a b} ha hb hab => ?_) hall
        exact hless.asymm (hfront n b hb) (hfront n a ha) hab
      obtain ⟨out, hout, hpair⟩ := exists_insertAll? hless (hdrop n)
        (show ∀ a ∈ (x :: y :: rest.take n).reverse.toArray.toList, P a from
          fun a ha => hfront n a (List.mem_reverse.mp ha)) hrev
      refine ⟨out, ?_, hpair⟩
      simp only [sortedBy?, hr, hn, Option.pure_def, Option.bind_eq_bind, Option.bind_some, if_true,
        hout]
    · obtain ⟨n, hn, hrun⟩ := exists_ascendingRun? hless hy hrest
      have hall : (x :: y :: rest.take n).Pairwise (InOrder less) := by
        refine List.pairwise_cons.mpr ⟨fun a ha => ?_, hrun⟩
        rcases List.mem_cons.mp ha with rfl | ha
        · exact hr
        · exact hless.trans hx hy (hrest a (List.mem_of_mem_take ha)) hr
            ((List.pairwise_cons.mp hrun).1 a ha)
      obtain ⟨out, hout, hpair⟩ := exists_insertAll? hless (hdrop n)
        (show ∀ a ∈ (x :: y :: rest.take n).toArray.toList, P a from
          fun a ha => hfront n a (by simpa using ha)) hall
      refine ⟨out, ?_, hpair⟩
      simp only [sortedBy?, hr, hn, Option.pure_def, Option.bind_eq_bind, Option.bind_some,
        Bool.false_eq_true, if_false, hout]

/-- A list that is in order is its own arrangement. -/
theorem sortedBy?_of_ordered {less : α → α → Option Bool} :
    ∀ {xs : List α}, xs.Pairwise (InOrder less) → sortedBy? less xs = some xs
  | [], _ => rfl
  | [x], _ => rfl
  | x :: y :: rest, h => by
    obtain ⟨hx, hrest⟩ := List.pairwise_cons.mp h
    have hr : less y x = some false := hx y (by simp)
    have hn := ascendingRun?_of_ordered hrest
    simp [sortedBy?, hr, hn, insertAll?]

end ContractKit.Value
