import ContractKit.Codec.OfType
import ContractKit.Proofs.Codec.Parts
import ContractKit.Proofs.Fault.Gather

/-!
# `Proofs/Codec/OfType.lean`: which codec an annotation has

`ofType` refuses most annotations. `ofType_induction` lists those that it does not refuse, with the
codec of each, and is how a fact about the codecs of annotations is proved from now on. The codecs of
annotations whose prefix has a width of its own are listed by `prefixed_cases`.
-/

set_option autoImplicit false

namespace ContractKit.Codec

variable {classes : Classes}

theorem ofClass_cases {ref : ClassRef} {c : Codec} (h : ofClass classes ref = .ok c) :
    (classes ref.id).codec = some c ∨
      (classes ref.id).codec = none ∧ ref.id = ClassRef.contractAddress.id ∧ c = .contractAddress := by
  unfold ofClass at h
  cases hcodec : (classes ref.id).codec with
  | some d =>
    simp only [hcodec, Except.ok.injEq] at h
    exact Or.inl (by rw [h])
  | none =>
    simp only [hcodec] at h
    by_cases hid : ref.id = ClassRef.contractAddress.id
    · simp only [hid, beq_self_eq_true, if_true, Except.ok.injEq] at h
      exact Or.inr ⟨rfl, hid, h.symm⟩
    · simp only [beq_iff_eq, hid, if_false] at h
      cases h

/-- **What holds of every codec that an annotation can have holds of the codec that it has.** It is the
induction that the recursion of `ofType` gives, with the cases that end in a refusal left out. -/
theorem ofType_induction {P : Ty → Codec → Prop}
    (annotated : ∀ base metadata c, P base c → P (.annotated base metadata) c)
    (sized : ∀ i, P (.sized i) (.int i.format))
    (accountAddress : P .accountAddress .accountAddress)
    (bool : P .bool .bool)
    (bytes : P .bytes (.bytes .standard .unchecked))
    (text : P .text (.text .standard .unchecked))
    (cls : ∀ ref c, ofClass classes ref = .ok c → P (.cls ref) c)
    (list : ∀ item c, P item c → P (.list item) (.sequence false c .standard .unchecked))
    (set : ∀ member c, P member c → P (.set member) (.set false c .standard .strictlyIncreasing))
    (frozenset : ∀ member c, P member c →
      P (.frozenset member) (.set true c .standard .strictlyIncreasing))
    (dict : ∀ key value k v, P key k → P value v →
      P (.dict key value) (.map k v .standard .strictlyIncreasing))
    (varTuple : ∀ item c, P item c → P (.tuple [item, .dots]) (.varTuple c))
    (tuple : ∀ args cs, (∀ item, args ≠ [item, .dots]) → List.Forall₂ P args cs →
      P (.tuple args) (.tuple cs))
    (optional : ∀ spelling t c, P t c → P (.union spelling [.noneType, t]) (.optional c))
    (optional' : ∀ spelling t c, t ≠ .noneType → P t c →
      P (.union spelling [t, .noneType]) (.optional c)) :
    ∀ {t : Ty} {c : Codec}, ofType classes t = .ok c → P t c := by
  -- the cases are those of the recursion, one for each equation of `ofType` and then of `ofTypes`
  suffices h : (∀ t c, ofType classes t = .ok c → P t c) ∧
      ∀ ts cs, ofTypes classes ts = .ok cs → List.Forall₂ P ts cs from fun {t c} => h.1 t c
  apply ofType.mutual_induct
  · intro base metadata ih c h
    exact annotated base metadata c (ih c h)
  · intro i c h
    cases h
    exact sized i
  · intro c h
    cases h
    exact accountAddress
  · intro c h
    cases h
    exact bool
  · intro c h
    cases h
    exact bytes
  · intro c h
    cases h
    exact text
  · exact fun ref c h => cls ref c h
  · intro container c h
    cases container <;> cases h
  · intro item ih c h
    obtain ⟨d, hd, hc⟩ := bind_eq_ok.mp h
    cases hc
    exact list item d (ih d hd)
  · intro member ih c h
    obtain ⟨-, -, h⟩ := bind_eq_ok.mp h
    obtain ⟨d, hd, hc⟩ := bind_eq_ok.mp h
    cases hc
    exact set member d (ih d hd)
  · intro member ih c h
    obtain ⟨-, -, h⟩ := bind_eq_ok.mp h
    obtain ⟨d, hd, hc⟩ := bind_eq_ok.mp h
    cases hc
    exact frozenset member d (ih d hd)
  · intro key value ihk ihv c h
    obtain ⟨-, -, h⟩ := bind_eq_ok.mp h
    obtain ⟨k, hk, h⟩ := bind_eq_ok.mp h
    obtain ⟨v, hv, hc⟩ := bind_eq_ok.mp h
    cases hc
    exact dict key value k v (ihk k hk) (ihv v hv)
  · intro item ih c h
    obtain ⟨d, hd, hc⟩ := bind_eq_ok.mp h
    cases hc
    exact varTuple item d (ih d hd)
  · intro args hne hlast c h
    simp only [ofType, hlast] at h
    cases h
  · intro args hne hlast ih c h
    rw [ofType] at h
    · split at h
      · rename_i hdots
        exact absurd hdots hlast
      · obtain ⟨cs, hcs, hc⟩ := bind_eq_ok.mp h
        cases hc
        exact tuple args cs hne (ih cs hcs)
    · exact hne
  · intro spelling t ih c h
    obtain ⟨d, hd, hc⟩ := bind_eq_ok.mp h
    cases hc
    exact optional spelling t d (ih d hd)
  · intro spelling t hne ih c h
    rw [ofType] at h
    · obtain ⟨d, hd, hc⟩ := bind_eq_ok.mp h
      cases hc
      exact optional' spelling t d hne (ih d hd)
    · exact hne
  · intro spelling members h1 h2 c h
    rw [ofType] at h
    · cases h
    · exact h1
    · exact h2
  · intro name c h
    cases h
  · intro c h
    cases h
  -- every other annotation is refused
  · intro t _ _ _ _ _ _ _ _ _ _ _ _ _ _ _ _ _ _ _ c h
    rw [ofType] at h
    · cases h
    all_goals assumption
  · intro cs h
    cases h
    exact .nil
  · intro t ts iht ihts cs h
    obtain ⟨d, hd, h⟩ := bind_eq_ok.mp h
    obtain ⟨ds, hds, hc⟩ := bind_eq_ok.mp h
    cases hc
    exact .cons (iht d hd) (ihts ds hds)

/-! ## Prefixes of their own -/

theorem fits_of_check {kind : ContainerKind} {t : Ty} (h : kind.check t = .ok ()) :
    kind.Fits t.stripped := by
  unfold ContainerKind.check at h
  split at h
  · assumption
  · cases h

theorem kind_of_fits_set {kind : ContainerKind} {member : Ty} (h : kind.Fits (.set member)) :
    kind = .set := by
  cases kind with
  | set => rfl
  | _ => exact h.elim

theorem kind_of_fits_frozenset {kind : ContainerKind} {member : Ty}
    (h : kind.Fits (.frozenset member)) : kind = .set := by
  cases kind with
  | set => rfl
  | _ => exact h.elim

theorem kind_of_fits_dict {kind : ContainerKind} {key value : Ty} (h : kind.Fits (.dict key value)) :
    kind = .map := by
  cases kind with
  | map => rfl
  | _ => exact h.elim

/-- The width of a prefix is found again in its number of bytes. -/
theorem eq_of_widthOf {width : PrefixWidth} {f : PrefixWidth → Codec} {c : Codec}
    (h : (widthOf width.bytes >>= fun w => pure (f w)) = .ok c) : f width = c := by
  obtain ⟨w, hw, hc⟩ := bind_eq_ok.mp h
  rw [widthOf, PrefixWidth.ofInt?_bytes] at hw
  cases hw
  exact pure_eq_ok.mp hc

/-- The same for annotations whose prefix has a width of its own. -/
theorem prefixed_cases {kind : ContainerKind} {width : PrefixWidth} {order : OrderPolicy}
    {P : Ty → Codec → Prop}
    (bytes : P .bytes (.bytes width order))
    (text : P .text (.text width order))
    (list : ∀ item c, ofType classes item = .ok c → P (.list item) (.sequence false c width order))
    (varTuple : ∀ item c, ofType classes item = .ok c →
      P (.tuple [item, .dots]) (.sequence true c width order))
    (set : ∀ member c, kind = .set → ofType classes member = .ok c →
      P (.set member) (.set false c width order))
    (frozenset : ∀ member c, kind = .set → ofType classes member = .ok c →
      P (.frozenset member) (.set true c width order))
    (dict : ∀ key value k v, kind = .map → ofType classes key = .ok k → ofType classes value = .ok v →
      P (.dict key value) (.map k v width order))
    {t : Ty} {c : Codec} (h : prefixed classes kind width.bytes order t = .ok c) :
    P t.stripped c := by
  obtain ⟨⟨⟩, hcheck, h⟩ := bind_eq_ok.mp h
  have hfits := fits_of_check hcheck
  -- a set needs the kind of sets and a map that of maps, which the check before has told
  split at h
  · rename_i ht
    rw [ht, ← eq_of_widthOf h]
    exact bytes
  · rename_i ht
    rw [ht, ← eq_of_widthOf h]
    exact text
  · rename_i container _
    cases container <;> cases h
  · rename_i item ht
    obtain ⟨d, hd, h⟩ := bind_eq_ok.mp h
    rw [ht, ← eq_of_widthOf h]
    exact list item d hd
  · rename_i item ht
    obtain ⟨d, hd, h⟩ := bind_eq_ok.mp h
    rw [ht, ← eq_of_widthOf h]
    exact varTuple item d hd
  · rename_i member ht
    obtain ⟨-, -, h⟩ := bind_eq_ok.mp h
    obtain ⟨d, hd, h⟩ := bind_eq_ok.mp h
    rw [ht, ← eq_of_widthOf h]
    exact set member d (kind_of_fits_set (ht ▸ hfits)) hd
  · rename_i member ht
    obtain ⟨-, -, h⟩ := bind_eq_ok.mp h
    obtain ⟨d, hd, h⟩ := bind_eq_ok.mp h
    rw [ht, ← eq_of_widthOf h]
    exact frozenset member d (kind_of_fits_frozenset (ht ▸ hfits)) hd
  · rename_i key value ht
    obtain ⟨-, -, h⟩ := bind_eq_ok.mp h
    obtain ⟨k, hk, h⟩ := bind_eq_ok.mp h
    obtain ⟨v, hv, h⟩ := bind_eq_ok.mp h
    rw [ht, ← eq_of_widthOf h]
    exact dict key value k v (kind_of_fits_dict (ht ▸ hfits)) hk hv
  · cases h

/-! ## Soundness -/

/-- **The codec of an annotation is sound** if those of classes are. Classes are sound because they are
declared in an order in which each is derived from those before it. -/
theorem sound_of_ofType (hclasses : ∀ id c, (classes id).codec = some c → c.Sound) {t : Ty}
    {c : Codec} (h : ofType classes t = .ok c) : c.Sound := by
  revert h
  -- most annotations add one node above one codec or none
  have hone : ∀ {d item : Codec}, item.Sound → d.SoundNode → d.children = [item] → d.Sound := by
    intro d item hitem hnode hchildren
    refine sound_of_children hnode fun e he => ?_
    rw [hchildren, List.mem_singleton] at he
    rw [he]
    exact hitem
  have hleaf : ∀ {d : Codec}, d.SoundNode → d.children = [] → d.Sound := by
    intro d hnode hchildren
    refine sound_of_children hnode fun e he => ?_
    rw [hchildren] at he
    cases he
  apply ofType_induction (P := fun _ c => c.Sound)
  · exact fun _ _ c h => h
  · exact fun i => hleaf trivial rfl
  · exact hleaf trivial rfl
  · exact hleaf trivial rfl
  · exact hleaf trivial rfl
  · exact hleaf trivial rfl
  · intro ref c h
    rcases ofClass_cases h with hcodec | ⟨-, -, rfl⟩
    · exact hclasses ref.id c hcodec
    · exact hleaf trivial rfl
  · exact fun _ c h => hone h trivial rfl
  · exact fun _ c h => hone h (by simp [SoundNode]) rfl
  · exact fun _ c h => hone h (by simp [SoundNode]) rfl
  · intro _ _ k v hk hv
    refine sound_of_children (by simp [SoundNode]) fun e he => ?_
    have he : e = k ∨ e = v := by simpa [children] using he
    rcases he with rfl | rfl
    · exact hk
    · exact hv
  · exact fun _ c h => hone h trivial rfl
  · intro args cs _ h
    refine sound_of_children trivial fun e he => ?_
    obtain ⟨-, -, hsound⟩ := exists_of_forall₂_right h he
    exact hsound
  · exact fun _ _ c h => hone h trivial rfl
  · exact fun _ _ c _ h => hone h trivial rfl

end ContractKit.Codec
