import ContractKit.Proofs.Value.KeyOrder
import Mathlib.Data.List.Forall2
import Mathlib.Data.List.Induction

/-!
# `Proofs/Value/Distinct.lean`: building sets and maps from what was read

A set keeps of equal members the first, and a map keeps of equal keys the last value, at the place of
the first. Among values that are fit to be keys being equal is being identical, so what is built has
distinct keys and holds nothing that was not read (`entriesOf_subperm`), and things that are distinct
already are left as they are.
-/

set_option autoImplicit false

namespace ContractKit.Value

variable {P : Value → Prop}

/-! ## Sets -/

theorem insertMember_of_mem (h : KeySpace P) {vs : List Value} {v : Value} (hvs : ∀ x ∈ vs, P x)
    (hv : P v) (hmem : v ∈ vs) : insertMember vs v = vs := by
  rw [insertMember, if_pos]
  exact List.any_eq_true.mpr ⟨v, hmem, (h.beq_iff hv (hvs v hmem)).mpr rfl⟩

theorem insertMember_of_not_mem (h : KeySpace P) {vs : List Value} {v : Value} (hvs : ∀ x ∈ vs, P x)
    (hv : P v) (hmem : v ∉ vs) : insertMember vs v = vs ++ [v] := by
  rw [insertMember, if_neg]
  intro hany
  obtain ⟨x, hx, hbeq⟩ := List.any_eq_true.mp hany
  exact hmem ((h.beq_iff hv (hvs x hx)).mp hbeq ▸ hx)

/-- The members that are collected while a list is gone through. -/
theorem foldl_insertMember (h : KeySpace P) : ∀ {vs acc : List Value}, (∀ x ∈ acc, P x) →
    (∀ x ∈ vs, P x) → acc.Nodup →
      (vs.foldl insertMember acc).Nodup ∧ (vs.foldl insertMember acc).Sublist (acc ++ vs) ∧
        ((acc ++ vs).Nodup → vs.foldl insertMember acc = acc ++ vs)
  | [], acc, _, _, hnodup => ⟨hnodup, by simp, fun _ => by simp⟩
  | v :: vs, acc, hacc, hvs, hnodup => by
    have hv : P v := hvs v (by simp)
    have hvs' : ∀ x ∈ vs, P x := fun x hx => hvs x (by simp [hx])
    rw [List.foldl_cons]
    by_cases hmem : v ∈ acc
    · rw [insertMember_of_mem h hacc hv hmem]
      obtain ⟨h1, h2, -⟩ := foldl_insertMember h hacc hvs' hnodup
      refine ⟨h1, h2.trans ?_, fun hall => ?_⟩
      · exact List.Sublist.append_left (List.sublist_cons_self v vs) acc
      · exact absurd (List.nodup_append.mp hall).2.2 (fun hd => hd v hmem v (by simp) rfl)
    · rw [insertMember_of_not_mem h hacc hv hmem]
      have hacc' : ∀ x ∈ acc ++ [v], P x := by
        intro x hx
        rcases List.mem_append.mp hx with hx | hx
        · exact hacc x hx
        · rw [List.mem_singleton.mp hx]
          exact hv
      have hnodup' : (acc ++ [v]).Nodup := by
        rw [List.nodup_append]
        refine ⟨hnodup, by simp, ?_⟩
        rintro x hx y hy rfl
        exact hmem (List.mem_singleton.mp hy ▸ hx)
      have := foldl_insertMember h hacc' hvs' hnodup'
      rwa [List.append_assoc, List.singleton_append] at this

/-- The members of a set are some of the values that it was built from, each of them once. -/
theorem membersOf_sublist (h : KeySpace P) {vs : List Value} (hvs : ∀ x ∈ vs, P x) :
    (membersOf vs).Sublist vs :=
  (foldl_insertMember h (by simp) hvs List.nodup_nil).2.1

theorem membersOf_nodup (h : KeySpace P) {vs : List Value} (hvs : ∀ x ∈ vs, P x) :
    (membersOf vs).Nodup :=
  (foldl_insertMember h (by simp) hvs List.nodup_nil).1

theorem membersOf_of_nodup (h : KeySpace P) {vs : List Value} (hvs : ∀ x ∈ vs, P x)
    (hnodup : vs.Nodup) : membersOf vs = vs :=
  (foldl_insertMember h (by simp) hvs List.nodup_nil).2.2 hnodup

/-! ## Maps -/

theorem insertEntry_of_not_mem (h : KeySpace P) {es : List (Value × Value)} {k v : Value}
    (hes : ∀ e ∈ es, P e.1) (hk : P k) (hmem : k ∉ es.map (·.1)) :
    insertEntry es k v = es ++ [(k, v)] := by
  rw [insertEntry, if_neg]
  intro hany
  obtain ⟨e, he, hbeq⟩ := List.any_eq_true.mp hany
  exact hmem (List.mem_map.mpr ⟨e, he, (h.beq_iff (hes e he) hk).mp hbeq⟩)

/-- The entry with the key is the only one that changes. -/
theorem insertEntry_of_mem (h : KeySpace P) {before after : List (Value × Value)} {k old v : Value}
    (hes : ∀ e ∈ before ++ (k, old) :: after, P e.1)
    (hnodup : ((before ++ (k, old) :: after).map (·.1)).Nodup) :
    insertEntry (before ++ (k, old) :: after) k v = before ++ (k, v) :: after := by
  have hk : P k := hes (k, old) (by simp)
  have hsame : k.beq k = true := (h.beq_iff hk hk).mpr rfl
  rw [List.map_append, List.map_cons, List.nodup_append] at hnodup
  obtain ⟨-, hafter, hbefore⟩ := hnodup
  have hother : ∀ {fs : List (Value × Value)}, (∀ e ∈ fs, P e.1) → (∀ e ∈ fs, e.1 ≠ k) →
      (fs.map fun e => if e.1.beq k = true then (e.1, v) else e) = fs := by
    intro fs hfs hne
    refine (List.map_congr_left fun e he => ?_).trans (List.map_id fs)
    rw [if_neg (fun hb => hne e he ((h.beq_iff (hfs e he) hk).mp hb))]
    rfl
  rw [insertEntry, if_pos (List.any_eq_true.mpr ⟨(k, old), by simp, hsame⟩), List.map_append,
    List.map_cons, hother (fun e he => hes e (by simp [he])), if_pos hsame,
    hother (fun e he => hes e (by simp [he]))]
  · intro e he heq
    exact (List.nodup_cons.mp hafter).1 (List.mem_map.mpr ⟨e, he, heq⟩)
  · intro e he heq
    exact hbefore e.1 (List.mem_map.mpr ⟨e, he, rfl⟩) k (by simp) heq

/-- The entries that are collected while a list is gone through. -/
theorem foldl_insertEntry (h : KeySpace P) : ∀ {es acc : List (Value × Value)},
    (∀ e ∈ acc, P e.1) → (∀ e ∈ es, P e.1) → (acc.map (·.1)).Nodup →
      ((es.foldl (fun acc e => insertEntry acc e.1 e.2) acc).map (·.1)).Nodup ∧
        (es.foldl (fun acc e => insertEntry acc e.1 e.2) acc).Subperm (acc ++ es) ∧
        (((acc ++ es).map (·.1)).Nodup →
          es.foldl (fun acc e => insertEntry acc e.1 e.2) acc = acc ++ es)
  | [], acc, _, _, hnodup => by
    rw [List.append_nil]
    exact ⟨hnodup, List.Subperm.refl acc, fun _ => rfl⟩
  | (k, v) :: es, acc, hacc, hes, hnodup => by
    have hk : P k := hes (k, v) (by simp)
    have hes' : ∀ e ∈ es, P e.1 := fun e he => hes e (by simp [he])
    rw [List.foldl_cons]
    -- a key that is there keeps its place and gets the new value; any other key comes last
    by_cases hmem : k ∈ acc.map (·.1)
    · obtain ⟨⟨k', old⟩, he, rfl⟩ := List.mem_map.mp hmem
      obtain ⟨before, after, rfl⟩ := List.append_of_mem he
      rw [insertEntry_of_mem h hacc hnodup]
      have hkeys : ((before ++ (k', v) :: after).map (·.1)) =
          (before ++ (k', old) :: after).map (·.1) := by simp
      have hacc' : ∀ e ∈ before ++ (k', v) :: after, P e.1 := by
        intro e he
        have hmem : e.1 ∈ (before ++ (k', old) :: after).map (·.1) :=
          hkeys ▸ List.mem_map.mpr ⟨e, he, rfl⟩
        obtain ⟨f, hf, hfe⟩ := List.mem_map.mp hmem
        exact hfe ▸ hacc f hf
      obtain ⟨h1, h2, -⟩ := foldl_insertEntry h hacc' hes' (hkeys ▸ hnodup)
      refine ⟨h1, h2.trans ?_, fun hall => ?_⟩
      · -- the new entry is one of those still to come, and the old one is dropped
        refine ⟨before ++ after ++ (k', v) :: es, ?_, ?_⟩
        · simp only [List.append_assoc, List.cons_append]
          exact List.perm_middle.append_left before
        · simp only [List.append_assoc, List.cons_append]
          exact List.Sublist.append_left (List.sublist_cons_self _ _) before
      · rw [List.map_append, List.nodup_append] at hall
        exact absurd rfl (hall.2.2 k' hmem k' (by simp))
    · rw [insertEntry_of_not_mem h hacc hk hmem]
      have hacc' : ∀ e ∈ acc ++ [(k, v)], P e.1 := by
        intro e he
        rcases List.mem_append.mp he with he | he
        · exact hacc e he
        · rw [List.mem_singleton.mp he]
          exact hk
      have hnodup' : ((acc ++ [(k, v)]).map (·.1)).Nodup := by
        rw [List.map_append, List.nodup_append]
        refine ⟨hnodup, by simp, ?_⟩
        rintro x hx y hy rfl
        obtain rfl : x = k := List.mem_singleton.mp hy
        exact hmem hx
      have := foldl_insertEntry h hacc' hes' hnodup'
      rwa [List.append_assoc, List.singleton_append] at this

/-- The entries of a map are some of those that it was built from, in some order. -/
theorem entriesOf_subperm (h : KeySpace P) {es : List (Value × Value)} (hes : ∀ e ∈ es, P e.1) :
    (entriesOf es).Subperm es :=
  (foldl_insertEntry h (by simp) hes (show ([].map _).Nodup from List.nodup_nil)).2.1

theorem entriesOf_nodup (h : KeySpace P) {es : List (Value × Value)} (hes : ∀ e ∈ es, P e.1) :
    ((entriesOf es).map (·.1)).Nodup :=
  (foldl_insertEntry h (by simp) hes (show ([].map _).Nodup from List.nodup_nil)).1

theorem entriesOf_of_nodup (h : KeySpace P) {es : List (Value × Value)} (hes : ∀ e ∈ es, P e.1)
    (hnodup : (es.map (·.1)).Nodup) : entriesOf es = es :=
  (foldl_insertEntry h (by simp) hes (show ([].map _).Nodup from List.nodup_nil)).2.2 hnodup

/-! ## What is kept -/

theorem mem_insertMember (h : KeySpace P) {vs : List Value} {v x : Value} (hvs : ∀ y ∈ vs, P y)
    (hv : P v) : x ∈ insertMember vs v ↔ x ∈ vs ∨ x = v := by
  by_cases hmem : v ∈ vs
  · rw [insertMember_of_mem h hvs hv hmem]
    constructor
    · exact Or.inl
    · rintro (hx | rfl)
      · exact hx
      · exact hmem
  · rw [insertMember_of_not_mem h hvs hv hmem, List.mem_append, List.mem_singleton]

/-- A set holds all that it was built from. -/
theorem mem_membersOf (h : KeySpace P) {vs : List Value} (hvs : ∀ x ∈ vs, P x) {x : Value} :
    x ∈ membersOf vs ↔ x ∈ vs := by
  -- the member that comes last is inserted last
  induction vs using List.reverseRecOn with
  | nil => exact Iff.rfl
  | append_singleton vs v ih =>
    have hvs' : ∀ y ∈ vs, P y := fun y hy => hvs y (by simp [hy])
    have hmembers : ∀ y ∈ membersOf vs, P y := fun y hy => hvs' y ((membersOf_sublist h hvs').subset hy)
    have hstep : membersOf (vs ++ [v]) = insertMember (membersOf vs) v := by
      rw [membersOf, List.foldl_append]
      rfl
    rw [hstep, mem_insertMember h hmembers (hvs v (by simp)), ih hvs', List.mem_append,
      List.mem_singleton]

theorem mem_insertEntry (h : KeySpace P) {es : List (Value × Value)} {k v : Value}
    (hes : ∀ e ∈ es, P e.1) (hk : P k) {e : Value × Value} :
    e ∈ insertEntry es k v ↔ e = (k, v) ∨ e.1 ≠ k ∧ e ∈ es := by
  by_cases hmem : k ∈ es.map (·.1)
  · obtain ⟨old, hold, heq⟩ := List.mem_map.mp hmem
    have hany : (es.any fun e => e.1.beq k) = true :=
      List.any_eq_true.mpr ⟨old, hold, (h.beq_iff (hes old hold) hk).mpr heq⟩
    rw [insertEntry, if_pos hany, List.mem_map]
    constructor
    · rintro ⟨f, hf, rfl⟩
      by_cases hfk : f.1 = k
      · rw [if_pos ((h.beq_iff (hes f hf) hk).mpr hfk), hfk]
        exact Or.inl rfl
      · rw [if_neg fun hb => hfk ((h.beq_iff (hes f hf) hk).mp hb)]
        exact Or.inr ⟨hfk, hf⟩
    · rintro (rfl | ⟨hne, he⟩)
      · refine ⟨old, hold, ?_⟩
        rw [if_pos ((h.beq_iff (hes old hold) hk).mpr heq), heq]
      · exact ⟨e, he, if_neg fun hb => hne ((h.beq_iff (hes e he) hk).mp hb)⟩
  · rw [insertEntry_of_not_mem h hes hk hmem, List.mem_append, List.mem_singleton]
    constructor
    · rintro (he | he)
      · exact Or.inr ⟨fun heq => hmem (heq ▸ List.mem_map_of_mem he), he⟩
      · exact Or.inl he
    · rintro (he | ⟨-, he⟩)
      · exact Or.inr he
      · exact Or.inl he

/-- The last of the entries with a key. -/
def IsLast (es : List (Value × Value)) (e : Value × Value) : Prop :=
  ∃ before after, es = before ++ e :: after ∧ e.1 ∉ after.map (·.1)

theorem isLast_append_singleton {es : List (Value × Value)} {e f : Value × Value} :
    IsLast (es ++ [f]) e ↔ e = f ∨ e.1 ≠ f.1 ∧ IsLast es e := by
  constructor
  · rintro ⟨before, after, heq, hafter⟩
    cases after using List.reverseRecOn with
    | nil => exact Or.inl (List.append_inj_right' heq rfl |> List.singleton_inj.mp).symm
    | append_singleton after g =>
      rw [← List.cons_append, ← List.append_assoc] at heq
      obtain ⟨hes, hg⟩ := List.append_inj' heq rfl
      obtain rfl := List.singleton_inj.mp hg
      rw [List.map_append, List.mem_append, not_or] at hafter
      exact Or.inr ⟨fun h => hafter.2 (by simp [h]), before, after, hes, hafter.1⟩
  · rintro (rfl | ⟨hne, before, after, rfl, hafter⟩)
    · exact ⟨es, [], rfl, by simp⟩
    · refine ⟨before, after ++ [f], by simp, ?_⟩
      rw [List.map_append, List.mem_append, not_or]
      exact ⟨hafter, by simpa using hne⟩

/-- **The last value of a key wins**: a map holds of the entries that it was built from those that no
entry with the same key comes after. -/
theorem mem_entriesOf (h : KeySpace P) {es : List (Value × Value)} (hes : ∀ e ∈ es, P e.1)
    {e : Value × Value} : e ∈ entriesOf es ↔ IsLast es e := by
  -- the entry that comes last is inserted last
  induction es using List.reverseRecOn with
  | nil => simp [entriesOf, IsLast]
  | append_singleton es f ih =>
    have hes' : ∀ e ∈ es, P e.1 := fun e he => hes e (by simp [he])
    have hentries : ∀ e ∈ entriesOf es, P e.1 := fun e he =>
      hes' e ((entriesOf_subperm h hes').subset he)
    have hstep : entriesOf (es ++ [f]) = insertEntry (entriesOf es) f.1 f.2 := by
      rw [entriesOf, List.foldl_append]
      rfl
    rw [hstep, mem_insertEntry h hentries (hes f (by simp)), ih hes', isLast_append_singleton]

/-! ## Distinct keys -/

/-- Keys that `beq` tells apart are different ones. -/
theorem KeySpace.nodup_iff (h : KeySpace P) {α : Type} (key : α → Value) {as : List α}
    (hP : ∀ a ∈ as, P (key a)) :
    (as.Pairwise fun a b => (key a).beq (key b) = false) ↔ (as.map key).Nodup := by
  rw [List.Nodup, List.pairwise_map]
  constructor
  · intro hdistinct
    exact hdistinct.imp_of_mem fun {a b} ha hb hab => (h.beq_false (hP a ha) (hP b hb)).mp hab
  · intro hnodup
    exact hnodup.imp_of_mem fun {a b} ha hb hab => (h.beq_false (hP a ha) (hP b hb)).mpr hab

theorem distinct_membersOf (h : KeySpace P) {vs : List Value} (hvs : ∀ x ∈ vs, P x) :
    (membersOf vs).Pairwise fun a b => a.beq b = false := by
  have hmembers : ∀ x ∈ membersOf vs, P x := fun x hx => hvs x ((membersOf_sublist h hvs).subset hx)
  refine (h.nodup_iff id hmembers).mpr ?_
  rw [List.map_id]
  exact membersOf_nodup h hvs

theorem distinct_entriesOf (h : KeySpace P) {es : List (Value × Value)} (hes : ∀ e ∈ es, P e.1) :
    (entriesOf es).Pairwise fun a b => a.1.beq b.1 = false := by
  have hentries : ∀ e ∈ entriesOf es, P e.1 := fun e he => hes e ((entriesOf_subperm h hes).subset he)
  rw [h.nodup_iff Prod.fst hentries]
  exact entriesOf_nodup h hes

end ContractKit.Value
