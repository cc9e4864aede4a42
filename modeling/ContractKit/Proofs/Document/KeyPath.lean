import ContractKit.Document.Merge
import Mathlib.Data.List.Basic

/-!
# `Proofs/Document/KeyPath.lean`: what stands at a key path

A key path leads from an object through the parts that it names, and ends at one more document or
nowhere (`Document.at?`). Laying one document over another is told by its key paths
(`Document.at?_over`): the upper one decides where it has anything, except that two objects are laid over
each other; where it has nothing the lower one is seen, unless something else than an object of the upper
one is on the way.

Of the parts of an object no two have one name. `Document.Sound` says so of every object that a key path
leads to, and holds of what is laid over each other.
-/

set_option autoImplicit false

namespace ContractKit.Document

variable {name other : String} {path : List String} {parts lower upper : List (String × Document)}
  {d e below : Document}

/-- The document at a key path. -/
def at? : List String → Document → Option Document
  | [], d => some d
  | name :: path, d => (d.part? name).bind (at? path)

/-- Whether anything else than an object stands on the way to a key path. -/
def hides : List String → Document → Bool
  | [], _ => false
  | name :: path, object parts => (parts.lookup name).any (hides path)
  | _ :: _, _ => true

/-- No object: a document with no parts to be laid over others. -/
def Plain (d : Document) : Prop := ∀ parts, d ≠ object parts

/-- No two parts of an object have one name, wherever a key path leads. -/
def Sound (d : Document) : Prop :=
  ∀ path parts, d.at? path = some (.object parts) → (parts.map Prod.fst).Nodup

/-! ## Key paths -/

theorem object_or_plain (d : Document) : (∃ parts, d = object parts) ∨ d.Plain := by
  by_cases h : ∃ parts, d = object parts
  · exact .inl h
  · exact .inr fun parts heq => h ⟨parts, heq⟩

@[simp] theorem at?_nil (d : Document) : d.at? [] = some d := rfl

theorem at?_cons_object :
    (object parts).at? (name :: path) = (parts.lookup name).bind (at? path) := rfl

/-- A key path goes on through objects only. -/
theorem at?_cons_plain (h : d.Plain) : d.at? (name :: path) = none := by
  rw [at?, part?.eq_def]
  split
  · exact absurd rfl (h _)
  · rfl

theorem hides_cons_plain (h : d.Plain) : d.hides (name :: path) = true := by
  rw [hides]
  exact h

theorem lookup_cons_part :
    ((name, d) :: parts).lookup other = if other = name then some d else parts.lookup other := by
  by_cases h : other = name
  · simp [h]
  · simp [List.lookup_cons, beq_false_of_ne h, h]

theorem lookup_eq_none : parts.lookup name = none ↔ name ∉ parts.map Prod.fst := by
  rw [List.lookup_eq_none_iff, List.mem_map]
  constructor
  · rintro h ⟨part, hpart, rfl⟩
    exact absurd (h part hpart) (by simp)
  · intro h part hpart
    rw [bne_iff_ne]
    rintro rfl
    exact h ⟨part, hpart, rfl⟩

theorem lookup_replaced :
    (parts.map fun part => if part.1 = name then (name, d) else part).lookup other =
      if other = name then (parts.lookup name).map fun _ => d else parts.lookup other := by
  induction parts with
  | nil => simp
  | cons part parts ih =>
    obtain ⟨first, e⟩ := part
    rw [lookup_cons_part, lookup_cons_part, List.map_cons]
    by_cases hfirst : first = name
    · rw [if_pos hfirst, lookup_cons_part, ih]
      by_cases hother : other = name
      · simp [hother, hfirst]
      · simp [hother, hfirst]
    · rw [if_neg hfirst, lookup_cons_part, ih]
      by_cases hother : other = name
      · simp [hother, Ne.symm hfirst]
      · simp [hother]

/-- A part that is put takes the place of the one of its name. -/
theorem lookup_put :
    (put parts name d).lookup other = if other = name then some d else parts.lookup other := by
  simp only [put, beq_iff_eq]
  by_cases hany : (parts.any fun part => part.1 == name) = true
  · rw [if_pos hany, lookup_replaced]
    obtain ⟨e, he⟩ : ∃ e, parts.lookup name = some e := by
      rw [← Option.ne_none_iff_exists', ne_eq, lookup_eq_none, not_not]
      simpa using hany
    rw [he]
    rfl
  · rw [if_neg hany, List.lookup_append]
    have hnone : parts.lookup name = none := by
      rw [lookup_eq_none]
      simpa using hany
    rw [lookup_cons_part]
    by_cases hother : other = name
    · simp [hother, hnone]
    · simp [hother]

/-- **The parts of an object that is laid over another one** hide those of their names, or are laid over
them. -/
theorem lookup_partsOver (h : (upper.map Prod.fst).Nodup) :
    (partsOver lower upper).lookup name =
      match upper.lookup name with
      | some d => some ((lower.lookup name).elim d fun below => below.over d)
      | none => lower.lookup name := by
  induction upper generalizing lower with
  | nil => rfl
  | cons part upper ih =>
    obtain ⟨first, d⟩ := part
    obtain ⟨hfirst, hrest⟩ := List.nodup_cons.mp h
    rw [partsOver, ih hrest, lookup_put, lookup_cons_part]
    by_cases hname : name = first
    · subst hname
      rw [lookup_eq_none.mpr hfirst, if_pos rfl, if_pos rfl]
      cases lower.lookup name with
      | none => rfl
      | some below => rfl
    · rw [if_neg hname, if_neg hname]

/-! ## Distinct names -/

theorem Sound.nodup (h : (object parts).Sound) : (parts.map Prod.fst).Nodup := h [] parts rfl

theorem Sound.part (h : (object parts).Sound) (hpart : parts.lookup name = some e) : e.Sound := by
  intro path inner hat
  apply h (name :: path)
  rw [at?_cons_object, hpart]
  exact hat

theorem names_put : (put parts name d).map Prod.fst =
    if name ∈ parts.map Prod.fst then parts.map Prod.fst else parts.map Prod.fst ++ [name] := by
  have hany : (parts.any fun part => part.1 == name) = true ↔ name ∈ parts.map Prod.fst := by
    simp
  have hkept : ∀ part : String × Document,
      (if part.1 == name then (name, d) else part).1 = part.1 := by
    intro part
    by_cases h : part.1 = name
    · simp [h]
    · simp [h]
  unfold put
  by_cases h : name ∈ parts.map Prod.fst
  · rw [if_pos (hany.mpr h), if_pos h, List.map_map]
    exact List.map_congr_left fun part _ => hkept part
  · rw [if_neg (mt hany.mp h), if_neg h]
    simp

theorem nodup_put (h : (parts.map Prod.fst).Nodup) : ((put parts name d).map Prod.fst).Nodup := by
  rw [names_put]
  split
  · exact h
  · next hname =>
    rw [List.nodup_append]
    refine ⟨h, List.pairwise_singleton _ name, ?_⟩
    rintro first hfirst other hother rfl
    exact hname (List.mem_singleton.mp hother ▸ hfirst)

/-- A part that is put among others keeps their names apart. -/
theorem nodup_partsOver (h : (lower.map Prod.fst).Nodup) :
    ((partsOver lower upper).map Prod.fst).Nodup := by
  induction upper generalizing lower with
  | nil => exact h
  | cons part upper ih => exact ih (nodup_put h)

/-! ## One document over another -/

theorem object_over_object : (object lower).over (object upper) = object (partsOver lower upper) := by
  rw [«over»]

/-- Anything hides what is no object, and is hidden by it. -/
theorem over_of_plain (h : d.Plain ∨ below.Plain) : below.over d = d := by
  rw [«over».eq_def]
  split
  · split
    · rcases h with hd | hbelow
      · exact absurd rfl (hd _)
      · exact absurd rfl (hbelow _)
    · rfl
  · rfl

/-- **What stands at a key path of a document that is laid over another one.** By induction along the
key path. The lower document is heard of only where the upper one has an object, or has nothing and
hides nothing. -/
theorem at?_over (h : d.Sound) : (below.over d).at? path =
    match d.at? path with
    | some e => some ((below.at? path).elim e fun under => under.over e)
    | none => if d.hides path then none else below.at? path := by
  induction path generalizing d below with
  | nil => rfl
  | cons name path ih =>
    rcases object_or_plain d with ⟨upper, rfl⟩ | hd
    · rcases object_or_plain below with ⟨lower, rfl⟩ | hbelow
      · rw [object_over_object, at?_cons_object, lookup_partsOver h.nodup, at?_cons_object,
          at?_cons_object, hides]
        cases hupper : upper.lookup name with
        | none => rfl
        | some e =>
          cases hlower : lower.lookup name with
          | none => cases hat : e.at? path <;> simp [hat]
          | some under => exact ih (h.part hupper)
      · rw [over_of_plain (.inr hbelow), at?_cons_plain hbelow]
        cases (object upper).at? (name :: path) with
        | none => simp
        | some e => rfl
    · rw [over_of_plain (.inl hd), at?_cons_plain hd, hides_cons_plain hd]
      rfl

theorem Sound.over (hbelow : below.Sound) (h : d.Sound) : (below.over d).Sound := by
  intro path parts hat
  rw [at?_over h] at hat
  cases hd : d.at? path with
  | none =>
    rw [hd] at hat
    dsimp only at hat
    split at hat
    · cases hat
    · exact hbelow path parts hat
  | some e =>
    rw [hd] at hat
    cases hunder : below.at? path with
    | none =>
      rw [hunder] at hat
      exact h path parts (hd.trans hat)
    | some under =>
      rw [hunder] at hat
      have hover : under.over e = object parts := Option.some.inj hat
      rcases object_or_plain e with ⟨upper, rfl⟩ | he
      · rcases object_or_plain under with ⟨lower, rfl⟩ | hplain
        · rw [object_over_object] at hover
          cases hover
          exact nodup_partsOver (hbelow path lower hunder)
        · rw [over_of_plain (.inr hplain)] at hover
          cases hover
          exact h path parts hd
      · rw [over_of_plain (.inl he)] at hover
        exact absurd hover (he parts)

end ContractKit.Document
