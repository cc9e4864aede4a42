import ContractKit.Proofs.Codec.OfType
import ContractKit.Proofs.Codec.Walk
import ContractKit.Schema.OfType

/-!
# `Proofs/Ty/Layout.lean`: one layout for an annotation

Codec and schema of an annotation are found by two recursions that know nothing of each other. Both
follow `layout`, a third one that finds the walk over the values directly: whatever the codec is, it
walks that way (`layout_of_codec`), and so does the schema (`layout_of_schema`). What either knows
about a class enters as a layout for that class (`Layouts`), and knowing more classes changes no
layout that was found (`layout_mono`).
-/

set_option autoImplicit false

namespace ContractKit

open Read

/-- How the values of each class lie in a byte string, as far as that is known. Contract addresses
are known without it. -/
structure Layouts where
  find : ClassId → Option (Read Unit)
  native : find ClassRef.contractAddress.id = none

/-- What the one knows the other knows too. -/
def Layouts.Extends (known more : Layouts) : Prop :=
  ∀ id walk, known.find id = some walk → more.find id = some walk

namespace Ty

mutual

/-- What skips a value of an annotation. -/
def layout (known : Layouts) : Ty → Option (Read Unit)
  | .annotated base _ => layout known base
  | .sized i => some (skip i.format.width)
  | .accountAddress => some (skip 32)
  | .bool => some (skip 1)
  | .bytes => some (skipCounted .standard (skip 1))
  | .text => some (skipCounted .standard (skip 1))
  | .cls ref =>
    match known.find ref.id with
    | some walk => some walk
    | Option.none => if ref.id = ClassRef.contractAddress.id then some (skip 16) else Option.none
  | .list item => (layout known item).map (skipCounted .standard)
  | .set member => (layout known member).map (skipCounted .standard)
  | .frozenset member => (layout known member).map (skipCounted .standard)
  | .dict key value =>
    (layout known key).bind fun k =>
      (layout known value).map fun v => skipCounted .standard (inOrder [k, v])
  | .tuple [item, .dots] => (layout known item).map (skipCounted .standard)
  | .tuple args => (layouts known args).map inOrder
  | .union _ [.noneType, t] => (layout known t).map skipOptional
  | .union _ [t, .noneType] => (layout known t).map skipOptional
  | _ => Option.none

/-- What skips each of the values of some annotations. -/
def layouts (known : Layouts) : List Ty → Option (List (Read Unit))
  | [] => some []
  | t :: ts => (layout known t).bind fun p => (layouts known ts).map (p :: ·)

end

section Lookup

variable {known : Layouts}

theorem layout_cls (ref : ClassRef) :
    (Ty.cls ref).layout known =
      match known.find ref.id with
      | some walk => some walk
      | Option.none => if ref.id = ClassRef.contractAddress.id then some (skip 16) else Option.none :=
  rfl

theorem layout_cls_of_find {ref : ClassRef} {walk : Read Unit} (h : known.find ref.id = some walk) :
    (Ty.cls ref).layout known = some walk := by
  rw [layout_cls, h]

theorem layout_contractAddress {ref : ClassRef} (h : ref.id = ClassRef.contractAddress.id) :
    (Ty.cls ref).layout known = some (skip 16) := by
  rw [layout_cls, h, known.native]
  simp

theorem layout_dict {key value : Ty} {k v : Read Unit} (hk : key.layout known = some k)
    (hv : value.layout known = some v) :
    (Ty.dict key value).layout known = some (skipCounted .standard (inOrder [k, v])) := by
  show ((layout known key).bind fun k => (layout known value).map fun v =>
    skipCounted .standard (inOrder [k, v])) = _
  rw [hk, hv]
  rfl

theorem layout_tuple {args : List Ty} (hne : ∀ item, args ≠ [item, .dots]) :
    (Ty.tuple args).layout known = (layouts known args).map inOrder := by
  rw [layout]
  exact hne

theorem layout_optional {spelling : UnionSpelling} {t : Ty} :
    (Ty.union spelling [t, .noneType]).layout known = (t.layout known).map skipOptional := by
  cases t <;> rfl

theorem layouts_cons {t : Ty} {ts : List Ty} {p : Read Unit} {ps : List (Read Unit)}
    (hp : t.layout known = some p) (hps : layouts known ts = some ps) :
    layouts known (t :: ts) = some (p :: ps) := by
  show ((layout known t).bind fun p => (layouts known ts).map (p :: ·)) = _
  rw [hp, hps]
  rfl

end Lookup

/-! ## Knowing more -/

theorem layout_cls_mono {known more : Layouts} (h : known.Extends more) {ref : ClassRef}
    {walk : Read Unit} (hwalk : (Ty.cls ref).layout known = some walk) :
    (Ty.cls ref).layout more = some walk := by
  by_cases hid : ref.id = ClassRef.contractAddress.id
  · rw [layout_contractAddress hid] at hwalk
    rw [layout_contractAddress hid, hwalk]
  · cases hfind : known.find ref.id with
    | some found =>
      rw [layout_cls_of_find hfind] at hwalk
      rw [layout_cls_of_find (h _ _ hfind), hwalk]
    | none =>
      rw [layout_cls, hfind] at hwalk
      simp only [hid, if_false] at hwalk
      cases hwalk

/-- **A layout stays what it is** when more classes become known. Classes become known one after the
other, and what was derived before keeps its layout by this. -/
theorem layouts_mono {known more : Layouts} (h : known.Extends more) :
    (∀ t walk, layout known t = some walk → layout more t = some walk) ∧
      ∀ ts walks, layouts known ts = some walks → layouts more ts = some walks := by
  have hone : ∀ {t : Ty} {f : Read Unit → Read Unit},
      (∀ walk, layout known t = some walk → layout more t = some walk) →
      ∀ walk, (layout known t).map f = some walk → (layout more t).map f = some walk := by
    intro t f ih walk hwalk
    obtain ⟨p, hp, rfl⟩ := Option.map_eq_some_iff.mp hwalk
    rw [ih p hp]
    rfl
  have hcls : ∀ ref : ClassRef, ∀ walk, (Ty.cls ref).layout known = some walk →
      (Ty.cls ref).layout more = some walk := fun _ _ => layout_cls_mono h
  apply layout.mutual_induct known
  · exact fun _ _ ih => ih
  · exact fun _ _ hwalk => hwalk
  · exact fun _ hwalk => hwalk
  · exact fun _ hwalk => hwalk
  · exact fun _ hwalk => hwalk
  · exact fun _ hwalk => hwalk
  · exact fun ref _ _ => hcls ref
  · exact fun ref _ _ => hcls ref
  · exact fun ref _ _ => hcls ref
  · exact fun _ ih => hone ih
  · exact fun _ ih => hone ih
  · exact fun _ ih => hone ih
  · intro key value ihk ihv walk hwalk
    obtain ⟨k, hk, hwalk⟩ := Option.bind_eq_some_iff.mp hwalk
    obtain ⟨v, hv, rfl⟩ := Option.map_eq_some_iff.mp hwalk
    exact layout_dict (ihk k hk) (ihv v hv)
  · exact fun _ ih => hone ih
  · intro args hne ih walk hwalk
    rw [layout_tuple hne] at hwalk ⊢
    obtain ⟨ps, hps, rfl⟩ := Option.map_eq_some_iff.mp hwalk
    rw [ih ps hps]
    rfl
  · exact fun _ _ ih => hone ih
  · intro spelling t _ ih
    rw [layout_optional, layout_optional]
    exact hone ih
  -- what is left has no layout to keep
  · intro t h1 h2 h3 h4 h5 h6 h7 h8 h9 h10 h11 h12 h13 h14 h15 walk hwalk
    rw [layout] at hwalk
    · cases hwalk
    all_goals assumption
  · exact fun _ hwalk => hwalk
  · intro t ts ih ihs walks hwalks
    obtain ⟨p, hp, hwalks⟩ := Option.bind_eq_some_iff.mp hwalks
    obtain ⟨ps, hps, rfl⟩ := Option.map_eq_some_iff.mp hwalks
    exact layouts_cons (ih p hp) (ihs ps hps)

theorem layout_mono {known more : Layouts} (h : known.Extends more) {t : Ty} {walk : Read Unit}
    (hwalk : t.layout known = some walk) : t.layout more = some walk :=
  (layouts_mono h).1 t walk hwalk

end Ty

/-! ## Codecs and schemas -/

section Sources

variable {classes : Classes} {known : Layouts}

theorem layouts_of_forall₂ : ∀ {ts : List Ty} {cs : List Codec},
    List.Forall₂ (fun t c => t.layout known = some (Codec.walk c)) ts cs →
      Ty.layouts known ts = some (Codec.walkAll cs)
  | _, _, .nil => rfl
  | _, _, .cons h hrest => Ty.layouts_cons h (layouts_of_forall₂ hrest)

/-- **A codec walks as the layout of its annotation says**, if the codecs of classes do. -/
theorem layout_of_codec
    (hknown : ∀ id c, (classes id).codec = some c → known.find id = some c.walk) {t : Ty}
    {c : Codec} (h : Codec.ofType classes t = .ok c) : t.layout known = some c.walk := by
  revert h
  have hcounted : ∀ {item : Ty} {d : Codec}, item.layout known = some d.walk →
      (item.layout known).map (skipCounted .standard) = some (skipCounted .standard d.walk) := by
    intro item d h
    rw [h]
    rfl
  -- the layout is found by the same recursion, so each case puts the same program around the parts
  apply Codec.ofType_induction (P := fun t c => t.layout known = some c.walk)
  · exact fun _ _ _ h => h
  · exact fun i => rfl
  · rfl
  · rfl
  · rfl
  · rfl
  · intro ref c h
    rcases Codec.ofClass_cases h with hcodec | ⟨-, hid, rfl⟩
    · exact Ty.layout_cls_of_find (hknown _ _ hcodec)
    · exact Ty.layout_contractAddress hid
  · exact fun item c h => hcounted h
  · exact fun member c h => hcounted h
  · exact fun member c h => hcounted h
  · exact fun key value k v hk hv => Ty.layout_dict hk hv
  · exact fun item c h => hcounted h
  · intro args cs hne h
    rw [Ty.layout_tuple hne, layouts_of_forall₂ h]
    rfl
  · intro spelling t c h
    show (t.layout known).map skipOptional = _
    rw [h]
    rfl
  · intro spelling t c hne h
    rw [Ty.layout_optional, h]
    rfl

theorem walk_ofSized : ∀ i : SizedInt, (Schema.ofSized i).walk = skip i.format.width
  | .u8 | .u16 | .u32 | .u64 | .u128 | .i8 | .i16 | .i32 | .i64 | .i128
  | .amount | .timestamp | .duration => rfl

theorem layout_of_schema_class
    (hknown : ∀ id s, (classes id).schema = some s → known.find id = some s.walk) {ref : ClassRef}
    {s : Schema} (h : Schema.ofClass classes ref = .ok s) :
    (Ty.cls ref).layout known = some s.walk := by
  rw [Schema.ofClass] at h
  cases hschema : (classes ref.id).schema with
  | some found =>
    rw [hschema] at h
    cases h
    exact Ty.layout_cls_of_find (hknown _ _ hschema)
  | none =>
    rw [hschema] at h
    by_cases hid : ref.id = ClassRef.contractAddress.id
    · simp only [hid, beq_self_eq_true, if_true] at h
      cases h
      exact Ty.layout_contractAddress hid
    · simp only [beq_iff_eq, hid, if_false] at h
      cases h

/-- **A schema walks as the layout of its annotation says**, if the schemas of classes do. -/
theorem layout_of_schema
    (hknown : ∀ id s, (classes id).schema = some s → known.find id = some s.walk) :
    ∀ t s, Schema.ofType classes t = .ok s → t.layout known = some s.walk := by
  have hone : ∀ {t : Ty} {make : Schema → Schema} {f : Read Unit → Read Unit},
      (∀ s, (make s).walk = f s.walk) →
      (∀ s, Schema.ofType classes t = .ok s → t.layout known = some s.walk) →
      ∀ s, (Schema.ofType classes t >>= fun s => pure (make s)) = .ok s →
        (t.layout known).map f = some s.walk := by
    intro t make f hmake ih s h
    obtain ⟨item, hitem, hs⟩ := bind_eq_ok.mp h
    cases hs
    rw [ih item hitem, Option.map_some, hmake]
  apply Schema.ofType.induct
  · exact fun _ _ ih => ih
  · intro i s h
    cases h
    rw [walk_ofSized]
    rfl
  · intro s h
    cases h
    rfl
  · intro s h
    cases h
    rfl
  · intro s h
    cases h
    rfl
  · intro s h
    cases h
    rfl
  · exact fun ref s h => layout_of_schema_class hknown h
  · exact fun item ih => hone (fun _ => rfl) ih
  · exact fun member ih => hone (fun _ => rfl) ih
  · exact fun member ih => hone (fun _ => rfl) ih
  · intro key value ihk ihv s h
    obtain ⟨k, hk, h⟩ := bind_eq_ok.mp h
    obtain ⟨v, hv, hs⟩ := bind_eq_ok.mp h
    cases hs
    exact Ty.layout_dict (ihk k hk) (ihv v hv)
  · exact fun item ih => hone (fun _ => rfl) ih
  · intro s h
    cases h
    rfl
  -- a pair is a tuple of two, which the layout does not tell apart
  · intro first second hne ih ih' s h
    rw [Schema.ofType] at h
    · obtain ⟨a, ha, h⟩ := bind_eq_ok.mp h
      obtain ⟨b, hb, hs⟩ := bind_eq_ok.mp h
      cases hs
      rw [Ty.layout_tuple (by simpa using hne),
        Ty.layouts_cons (ih a ha) (Ty.layouts_cons (ih' b hb) rfl)]
      rfl
    · exact hne
  · intro args h1 h2 h3 s h
    rw [Schema.ofType] at h
    · cases h
    all_goals assumption
  · exact fun spelling t ih => hone (fun _ => rfl) ih
  · intro spelling t hne ih s h
    rw [Schema.ofType] at h
    · rw [Ty.layout_optional]
      exact hone (fun _ => rfl) ih s h
    · exact hne
  -- every other annotation has no schema
  · intro t h1 h2 h3 h4 h5 h6 h7 h8 h9 h10 h11 h12 h13 h14 h15 h16 h17 s h
    rw [Schema.ofType] at h
    · cases h
    all_goals assumption

end Sources

end ContractKit
