import ContractKit.Proofs.Value.Sorted

/-!
# `Proofs/Value/KeyOrder.lean`: values that are fit to be keys

`lt?` orders some pairs of values and has no answer for others, and `beq` identifies values of
different classes. A property of values is a `KeySpace` when neither matters among the values that
have it: they are hashable, the order is strict and total, and `beq` is equality. Numbers, texts and
byte strings are key spaces each by itself, and so are records and tuples whose items come from key
spaces position by position (`KeySpace.of_lists`), which is where the lexicographic order is looked
at once and for all.

What codecs need of it is `KeySpace.exists_ordered` and `KeySpace.sortedBy?_of_ascending`: distinct
keys can be arranged so that they ascend strictly, and keys that do are left as they are.
-/

set_option autoImplicit false

namespace ContractKit.Value

/-- A property that makes values fit to be keys together: they can be hashed, their order is strict, and
no two different ones are equal. Then there is exactly one way to arrange keys. -/
structure KeySpace (P : Value → Prop) : Prop where
  hashable : ∀ {a}, P a → a.isHashable = true
  strict : StrictOn lt? P
  antisymm : ∀ {a b}, P a → P b → InOrder lt? a b → InOrder lt? b a → a = b
  beq_iff : ∀ {a b}, P a → P b → (a.beq b = true ↔ a = b)

namespace KeySpace

variable {P : Value → Prop}

theorem lt_of_ne (h : KeySpace P) {a b : Value} (ha : P a) (hb : P b) (hab : InOrder lt? a b)
    (hne : a ≠ b) : lt? a b = some true := by
  rcases h.strict.answers ha hb with hlt | hge
  · exact hlt
  · exact absurd (h.antisymm ha hb hab hge) hne

theorem lt_irrefl (h : KeySpace P) {a : Value} (ha : P a) : lt? a a = some false := by
  rcases h.strict.answers ha ha with hlt | hge
  · exact h.strict.asymm ha ha hlt
  · exact hge

theorem beq_false (h : KeySpace P) {a b : Value} (ha : P a) (hb : P b) :
    a.beq b = false ↔ a ≠ b := by
  rw [← Bool.not_eq_true, h.beq_iff ha hb]

/-- Fewer values are fit to be keys together when more are. -/
theorem mono {Q : Value → Prop} (h : KeySpace P) (hsub : ∀ {a}, Q a → P a) : KeySpace Q :=
  ⟨fun ha => h.hashable (hsub ha),
    ⟨fun ha hb => h.strict.answers (hsub ha) (hsub hb),
      fun ha hb => h.strict.asymm (hsub ha) (hsub hb),
      fun ha hb hc => h.strict.trans (hsub ha) (hsub hb) (hsub hc)⟩,
    fun ha hb => h.antisymm (hsub ha) (hsub hb), fun ha hb => h.beq_iff (hsub ha) (hsub hb)⟩

/-- A key space is one by what makes its values different: a number, a text, a byte string. -/
theorem of_rank {γ : Type} [LE γ] [LT γ] [DecidableLT γ] [Std.IsLinearOrder γ]
    [Std.LawfulOrderLT γ] {P : Value → Prop} (rank : ∀ a, P a → γ)
    (hhash : ∀ {a}, P a → a.isHashable = true)
    (hlt : ∀ {a b} (ha : P a) (hb : P b), lt? a b = some (decide (rank a ha < rank b hb)))
    (hbeq : ∀ {a b} (ha : P a) (hb : P b), a.beq b = true ↔ rank a ha = rank b hb)
    (hinj : ∀ {a b} (ha : P a) (hb : P b), rank a ha = rank b hb → a = b) : KeySpace P := by
  have horder : ∀ {a b} (ha : P a) (hb : P b), InOrder lt? a b ↔ rank a ha ≤ rank b hb := by
    intro a b ha hb
    rw [InOrder, hlt hb ha, Option.some.injEq, decide_eq_false_iff_not, Std.not_lt]
  refine ⟨hhash, ⟨?_, ?_, ?_⟩, ?_, ?_⟩
  · intro a b ha hb
    rw [hlt ha hb]
    by_cases h : rank a ha < rank b hb
    · left
      simp [h]
    · right
      simp [h]
  · intro a b ha hb h
    rw [hlt ha hb, Option.some.injEq, decide_eq_true_eq] at h
    exact (horder ha hb).mpr (Std.le_of_lt h)
  · intro a b c ha hb hc hab hbc
    exact (horder ha hc).mpr (Std.le_trans ((horder ha hb).mp hab) ((horder hb hc).mp hbc))
  · intro a b ha hb hab hba
    exact hinj ha hb (Std.le_antisymm ((horder ha hb).mp hab) ((horder hb ha).mp hba))
  · intro a b ha hb
    rw [hbeq ha hb]
    constructor
    · exact hinj ha hb
    · rintro rfl
      rfl

end KeySpace

/-! ## Numbers, texts and byte strings -/

theorem lt?_of_number? {a b : Value} {n m : Int} (ha : a.number? = some n)
    (hb : b.number? = some m) : lt? a b = some (decide (n < m)) := by
  cases a with
  | bool x => cases ha; simp [lt?, hb]
  | int x => cases ha; simp [lt?, hb]
  | member _ _ _ => cases ha; simp [lt?, hb]
  | _ => cases ha

theorem beq_of_number? {a b : Value} {n m : Int} (ha : a.number? = some n)
    (hb : b.number? = some m) : a.beq b = true ↔ n = m := by
  cases a with
  | bool x => cases ha; simp only [beq, hb, beq_iff_eq, Option.some.injEq]; exact eq_comm
  | int x => cases ha; simp only [beq, hb, beq_iff_eq, Option.some.injEq]; exact eq_comm
  | member _ _ _ => cases ha; simp only [beq, hb, beq_iff_eq, Option.some.injEq]; exact eq_comm
  | _ => cases ha

/-- Values that are told apart by their numbers. -/
theorem KeySpace.of_numbers {P : Value → Prop} (number : ∀ a, P a → ∃ n, a.number? = some n)
    (hinj : ∀ {a b}, P a → P b → a.number? = b.number? → a = b) : KeySpace P := by
  refine KeySpace.of_rank (γ := Int) (fun a ha => (number a ha).choose) ?_ ?_ ?_ ?_
  · intro a ha
    obtain ⟨n, hn⟩ := number a ha
    cases a with
    | bool _ | int _ | member _ _ _ => rfl
    | _ => cases hn
  · intro a b ha hb
    exact lt?_of_number? (number a ha).choose_spec (number b hb).choose_spec
  · intro a b ha hb
    exact beq_of_number? (number a ha).choose_spec (number b hb).choose_spec
  · intro a b ha hb h
    apply hinj ha hb
    rw [(number a ha).choose_spec, (number b hb).choose_spec, h]

theorem KeySpace.int : KeySpace fun v => ∃ n, v = .int n := by
  refine KeySpace.of_numbers ?_ ?_
  · rintro a ⟨n, rfl⟩
    exact ⟨n, rfl⟩
  · rintro a b ⟨n, rfl⟩ ⟨m, rfl⟩ h
    cases h
    rfl

theorem KeySpace.bool : KeySpace fun v => ∃ b, v = .bool b := by
  refine KeySpace.of_numbers ?_ ?_
  · rintro a ⟨b, rfl⟩
    exact ⟨_, rfl⟩
  · rintro a b ⟨x, rfl⟩ ⟨y, rfl⟩ h
    cases x <;> cases y <;> first | rfl | cases h

theorem KeySpace.text : KeySpace fun v => ∃ s, v = .text s := by
  refine KeySpace.of_rank (γ := String) (fun _ ha => ha.choose) ?_ ?_ ?_ ?_
  · rintro a ⟨s, rfl⟩
    rfl
  · intro a b ha hb
    conv_lhs => rw [ha.choose_spec, hb.choose_spec]
    rfl
  · intro a b ha hb
    conv_lhs => rw [ha.choose_spec, hb.choose_spec]
    simp [beq]
  · intro a b ha hb h
    rw [ha.choose_spec, hb.choose_spec, h]

theorem KeySpace.bytes : KeySpace fun v => ∃ data, v = .bytes data := by
  refine KeySpace.of_rank (γ := Bytes) (fun _ ha => ha.choose) ?_ ?_ ?_ ?_
  · rintro a ⟨s, rfl⟩
    rfl
  · intro a b ha hb
    conv_lhs => rw [ha.choose_spec, hb.choose_spec]
    rfl
  · intro a b ha hb
    conv_lhs => rw [ha.choose_spec, hb.choose_spec]
    simp [beq]
  · intro a b ha hb h
    rw [ha.choose_spec, hb.choose_spec, h]

/-! ## Items compared one after the other -/

/-- The items of a list have the properties of their positions. -/
def At : (Nat → Value → Prop) → List Value → Prop
  | _, [] => True
  | F, x :: xs => F 0 x ∧ At (fun i => F (i + 1)) xs

/-- The shift that goes with the tail of a list. -/
theorem keySpaces_tail {F : Nat → Value → Prop} (hF : ∀ i, KeySpace (F i)) :
    ∀ i, KeySpace (F (i + 1)) := fun i => hF (i + 1)

theorem allHashable_of_at : ∀ {F : Nat → Value → Prop} {xs : List Value},
    (∀ i, KeySpace (F i)) → At F xs → allHashable xs = true
  | _, [], _, _ => rfl
  | F, x :: xs, hF, ⟨hx, hxs⟩ => by
    rw [allHashable, (hF 0).hashable hx, allHashable_of_at (keySpaces_tail hF) hxs]
    rfl

theorem beqAll_iff_of_at : ∀ {F : Nat → Value → Prop} {xs ys : List Value},
    (∀ i, KeySpace (F i)) → At F xs → At F ys → (beqAll xs ys = true ↔ xs = ys)
  | _, [], [], _, _, _ => by simp [beqAll]
  | _, [], _ :: _, _, _, _ => by simp [beqAll]
  | _, _ :: _, [], _, _, _ => by simp [beqAll]
  | F, x :: xs, y :: ys, hF, ⟨hx, hxs⟩, ⟨hy, hys⟩ => by
    rw [beqAll, Bool.and_eq_true, (hF 0).beq_iff hx hy,
      beqAll_iff_of_at (keySpaces_tail hF) hxs hys, List.cons.injEq]

/-- The comparison of two lists is that of the tails where the heads are the same, and that of the
heads where they are not. -/
theorem lexLt?_cons {F : Nat → Value → Prop} (hF : ∀ i, KeySpace (F i)) {x y : Value}
    (hx : F 0 x) (hy : F 0 y) (xs ys : List Value) :
    (x = y ∧ lexLt? (x :: xs) (y :: ys) = lexLt? xs ys) ∨
      (x ≠ y ∧ lexLt? (x :: xs) (y :: ys) = lt? x y) := by
  rw [lexLt?]
  by_cases h : x = y
  · left
    rw [if_pos (((hF 0).beq_iff hx hy).mpr h)]
    exact ⟨h, rfl⟩
  · right
    rw [if_neg (fun hb => h (((hF 0).beq_iff hx hy).mp hb))]
    exact ⟨h, rfl⟩

theorem lexLt?_answers : ∀ {F : Nat → Value → Prop} {xs ys : List Value},
    (∀ i, KeySpace (F i)) → At F xs → At F ys →
      lexLt? xs ys = some true ∨ lexLt? xs ys = some false
  | _, [], [], _, _, _ => Or.inr rfl
  | _, [], _ :: _, _, _, _ => Or.inl rfl
  | _, _ :: _, [], _, _, _ => Or.inr rfl
  | F, x :: xs, y :: ys, hF, ⟨hx, hxs⟩, ⟨hy, hys⟩ => by
    rcases lexLt?_cons hF hx hy xs ys with ⟨-, h⟩ | ⟨-, h⟩
    · rw [h]
      exact lexLt?_answers (keySpaces_tail hF) hxs hys
    · rw [h]
      exact (hF 0).strict.answers hx hy

theorem lexLt?_asymm : ∀ {F : Nat → Value → Prop} {xs ys : List Value},
    (∀ i, KeySpace (F i)) → At F xs → At F ys → lexLt? xs ys = some true →
      InOrder lexLt? xs ys
  | _, [], [], _, _, _, h => by cases h
  | _, [], _ :: _, _, _, _, _ => rfl
  | _, _ :: _, [], _, _, _, h => by cases h
  | F, x :: xs, y :: ys, hF, ⟨hx, hxs⟩, ⟨hy, hys⟩, h => by
    rw [InOrder]
    rcases lexLt?_cons hF hx hy xs ys with ⟨heq, h'⟩ | ⟨hne, h'⟩
    · rw [h'] at h
      rcases lexLt?_cons hF hy hx ys xs with ⟨-, h''⟩ | ⟨hne, -⟩
      · rw [h'']
        exact lexLt?_asymm (keySpaces_tail hF) hxs hys h
      · exact absurd heq.symm hne
    · rw [h'] at h
      rcases lexLt?_cons hF hy hx ys xs with ⟨heq, -⟩ | ⟨-, h''⟩
      · exact absurd heq.symm hne
      · rw [h'']
        exact (hF 0).strict.asymm hx hy h

/-- Two lists in order: the heads are the same and the tails in order, or the heads differ and are
in order. -/
theorem inOrder_cons {F : Nat → Value → Prop} (hF : ∀ i, KeySpace (F i)) {x y : Value}
    {xs ys : List Value} (hx : F 0 x) (hy : F 0 y) :
    InOrder lexLt? (x :: xs) (y :: ys) ↔
      (x = y ∧ InOrder lexLt? xs ys) ∨ (x ≠ y ∧ InOrder lt? x y) := by
  simp only [InOrder]
  rcases lexLt?_cons hF hy hx ys xs with ⟨heq, h⟩ | ⟨hne, h⟩
  · rw [h]
    simp [heq]
  · rw [h]
    simp [hne.symm]

theorem inOrder_trans : ∀ {F : Nat → Value → Prop} {xs ys zs : List Value},
    (∀ i, KeySpace (F i)) → At F xs → At F ys → At F zs →
      InOrder lexLt? xs ys → InOrder lexLt? ys zs → InOrder lexLt? xs zs
  | _, [], _, [], _, _, _, _, _, _ => rfl
  | _, [], _, _ :: _, _, _, _, _, _, _ => rfl
  | _, _ :: _, [], _, _, _, _, _, h, _ => by cases h
  | _, _ :: _, _ :: _, [], _, _, _, _, _, h => by cases h
  | F, x :: xs, y :: ys, z :: zs, hF, ⟨hx, hxs⟩, ⟨hy, hys⟩, ⟨hz, hzs⟩, hxy, hyz => by
    rw [inOrder_cons hF hx hy] at hxy
    rw [inOrder_cons hF hy hz] at hyz
    rw [inOrder_cons hF hx hz]
    rcases hxy with ⟨rfl, hxy⟩ | ⟨hne, hxy⟩
    · rcases hyz with ⟨rfl, hyz⟩ | ⟨hne', hyz⟩
      · exact Or.inl ⟨rfl, inOrder_trans (keySpaces_tail hF) hxs hys hzs hxy hyz⟩
      · exact Or.inr ⟨hne', hyz⟩
    · rcases hyz with ⟨rfl, -⟩ | ⟨-, hyz⟩
      · exact Or.inr ⟨hne, hxy⟩
      -- the heads of the outer lists differ: they would close a cycle through `y` otherwise
      · right
        refine ⟨?_, (hF 0).strict.trans hx hy hz hxy hyz⟩
        rintro rfl
        exact hne ((hF 0).antisymm hx hy hxy hyz)

theorem inOrder_antisymm : ∀ {F : Nat → Value → Prop} {xs ys : List Value},
    (∀ i, KeySpace (F i)) → At F xs → At F ys →
      InOrder lexLt? xs ys → InOrder lexLt? ys xs → xs = ys
  | _, [], [], _, _, _, _, _ => rfl
  | _, [], _ :: _, _, _, _, _, h => by cases h
  | _, _ :: _, [], _, _, _, h, _ => by cases h
  | F, x :: xs, y :: ys, hF, ⟨hx, hxs⟩, ⟨hy, hys⟩, hxy, hyx => by
    rw [inOrder_cons hF hx hy] at hxy
    rw [inOrder_cons hF hy hx] at hyx
    rcases hxy with ⟨rfl, hxy⟩ | ⟨hne, hxy⟩
    · rcases hyx with ⟨-, hyx⟩ | ⟨hne, -⟩
      · rw [inOrder_antisymm (keySpaces_tail hF) hxs hys hxy hyx]
      · exact absurd rfl hne
    · rcases hyx with ⟨heq, -⟩ | ⟨-, hyx⟩
      · exact absurd heq.symm hne
      · exact absurd ((hF 0).antisymm hx hy hxy hyx) hne

/-- **Values made of items are fit to be keys when the items are**, position by position. Which list
they are compared by is all that is asked of the values themselves. -/
theorem KeySpace.of_lists {F : Nat → Value → Prop} (hF : ∀ i, KeySpace (F i))
    {Q : List Value → Prop} (hQ : ∀ {xs}, Q xs → At F xs) {mk : List Value → Value}
    (hhash : ∀ {xs}, Q xs → isHashable (mk xs) = allHashable xs)
    (hlt : ∀ {xs ys}, Q xs → Q ys → lt? (mk xs) (mk ys) = lexLt? xs ys)
    (hbeq : ∀ {xs ys}, Q xs → Q ys → beq (mk xs) (mk ys) = beqAll xs ys) :
    KeySpace fun v => ∃ xs, v = mk xs ∧ Q xs := by
  -- all that is asked of the values is what the lists are compared by
  refine ⟨?_, ⟨?_, ?_, ?_⟩, ?_, ?_⟩
  · rintro a ⟨xs, rfl, hxs⟩
    rw [hhash hxs, allHashable_of_at hF (hQ hxs)]
  · rintro a b ⟨xs, rfl, hxs⟩ ⟨ys, rfl, hys⟩
    rw [hlt hxs hys]
    exact lexLt?_answers hF (hQ hxs) (hQ hys)
  · rintro a b ⟨xs, rfl, hxs⟩ ⟨ys, rfl, hys⟩ h
    rw [hlt hxs hys] at h
    rw [InOrder, hlt hys hxs]
    exact lexLt?_asymm hF (hQ hxs) (hQ hys) h
  · rintro a b c ⟨xs, rfl, hxs⟩ ⟨ys, rfl, hys⟩ ⟨zs, rfl, hzs⟩ hab hbc
    rw [InOrder, hlt hys hxs] at hab
    rw [InOrder, hlt hzs hys] at hbc
    rw [InOrder, hlt hzs hxs]
    exact inOrder_trans hF (hQ hxs) (hQ hys) (hQ hzs) hab hbc
  · rintro a b ⟨xs, rfl, hxs⟩ ⟨ys, rfl, hys⟩ hab hba
    rw [InOrder, hlt hys hxs] at hab
    rw [InOrder, hlt hxs hys] at hba
    rw [inOrder_antisymm hF (hQ hxs) (hQ hys) hab hba]
  · rintro a b ⟨xs, rfl, hxs⟩ ⟨ys, rfl, hys⟩
    rw [hbeq hxs hys, beqAll_iff_of_at hF (hQ hxs) (hQ hys)]
    constructor
    · rintro rfl
      rfl
    · intro h
      rw [← beqAll_iff_of_at hF (hQ hxs) (hQ hys), ← hbeq hxs hys, h, hbeq hys hys,
        beqAll_iff_of_at hF (hQ hys) (hQ hys)]

/-- Tuples are fit to be keys when their items are. -/
theorem KeySpace.of_tuples {F : Nat → Value → Prop} (hF : ∀ i, KeySpace (F i))
    {Q : List Value → Prop} (hQ : ∀ {xs}, Q xs → At F xs) :
    KeySpace fun v => ∃ xs, v = .tuple xs ∧ Q xs := by
  apply KeySpace.of_lists hF hQ
  · intro xs _
    rw [isHashable]
  · intro xs ys _ _
    rw [lt?]
    rfl
  · intro xs ys _ _
    rw [beq]
    rfl

/-- Records are fit to be keys when their items are and all of them are compared. -/
theorem KeySpace.of_records {F : Nat → Value → Prop} (hF : ∀ i, KeySpace (F i))
    {Q : List Value → Prop} (hQ : ∀ {xs}, Q xs → At F xs) {cls : RecordClass} {n : Nat}
    (hform : cls.form = .positional ∨ cls.form = .named true (some n))
    (hlen : ∀ {xs}, Q xs → xs.length = n) : KeySpace fun v => ∃ xs, v = .record cls xs ∧ Q xs := by
  apply KeySpace.of_lists hF hQ
  · intro xs _
    rw [isHashable, RecordClass.isHashable]
    rcases hform with h | h
    · simp [h]
    · simp [h]
  · intro xs ys _ hys
    rw [lt?]
    rcases hform with h | h
    · simp [h, tupleItems?, RecordClass.isPositional]
    · simp only [h, beq_self_eq_true, if_true]
      rw [List.take_of_length_le (Nat.le_of_eq (hlen hys))]
  · intro xs ys _ _
    rw [beq]
    rcases hform with h | h
    · simp [h, tupleItems?, RecordClass.isPositional]
    · simp [h, RecordClass.isPositional]

/-! ## Arranging things by their keys -/

namespace KeySpace

variable {P : Value → Prop} {α : Type}

/-- The comparison of things by their keys. -/
theorem strictOn_key (h : KeySpace P) (key : α → Value) :
    StrictOn (fun a b => lt? (key a) (key b)) (fun a => P (key a)) :=
  ⟨fun ha hb => h.strict.answers ha hb, fun ha hb => h.strict.asymm ha hb,
    fun ha hb hc => h.strict.trans ha hb hc⟩

/-- Distinct things stay distinct when they are rearranged. -/
theorem distinct_of_perm (h : KeySpace P) (key : α → Value) {as bs : List α}
    (hP : ∀ a ∈ as, P (key a)) (hperm : bs.Perm as)
    (hdistinct : as.Pairwise fun a b => (key a).beq (key b) = false) :
    bs.Pairwise fun a b => (key a).beq (key b) = false := by
  have hP' : ∀ b ∈ bs, P (key b) := fun b hb => hP b (hperm.mem_iff.mp hb)
  -- being distinct has no direction among keys
  have hne : as.Pairwise fun a b => key a ≠ key b :=
    List.Pairwise.imp_of_mem (fun {a b} ha hb hab => (h.beq_false (hP a ha) (hP b hb)).mp hab)
      hdistinct
  refine List.Pairwise.imp_of_mem (fun {a b} ha hb hab => ?_)
    ((hperm.pairwise_iff fun {_ _} hab => hab.symm).mpr hne)
  exact (h.beq_false (hP' a ha) (hP' b hb)).mpr hab

/-- **Things with distinct keys have an arrangement, and it ascends strictly.** Arranging only asks for
keys of the same key space; that no two are equal makes the order strict. -/
theorem exists_ordered (h : KeySpace P) (key : α → Value) {as : List α} (hP : ∀ a ∈ as, P (key a))
    (hdistinct : as.Pairwise fun a b => (key a).beq (key b) = false) :
    ∃ bs, sortedBy? (fun a b => lt? (key a) (key b)) as = some bs ∧ bs.Perm as ∧
      bs.Pairwise fun a b => lt? (key a) (key b) = some true := by
  obtain ⟨bs, hbs, hperm, horder⟩ := exists_sortedBy? (h.strictOn_key key) hP
  refine ⟨bs, hbs, hperm, ?_⟩
  have hP' : ∀ b ∈ bs, P (key b) := fun b hb => hP b (hperm.mem_iff.mp hb)
  refine List.Pairwise.imp_of_mem (fun {a b} ha hb hab => ?_)
    (horder.and (h.distinct_of_perm key hP hperm hdistinct))
  exact h.lt_of_ne (hP' a ha) (hP' b hb) hab.1 ((h.beq_false (hP' a ha) (hP' b hb)).mp hab.2)

/-- Things that ascend strictly by their keys are their own arrangement. -/
theorem sortedBy?_of_ascending (h : KeySpace P) (key : α → Value) {as : List α} (hP : ∀ a ∈ as, P (key a))
    (hasc : as.Pairwise fun a b => lt? (key a) (key b) = some true) :
    sortedBy? (fun a b => lt? (key a) (key b)) as = some as := by
  apply sortedBy?_of_ordered
  exact List.Pairwise.imp_of_mem
    (fun {a b} ha hb hab => h.strict.asymm (hP a ha) (hP b hb) hab) hasc

/-- Keys that ascend strictly are distinct. -/
theorem distinct_of_ascending (h : KeySpace P) (key : α → Value) {as : List α} (hP : ∀ a ∈ as, P (key a))
    (hasc : as.Pairwise fun a b => lt? (key a) (key b) = some true) :
    as.Pairwise fun a b => (key a).beq (key b) = false := by
  refine List.Pairwise.imp_of_mem (fun {a b} ha hb hab => ?_) hasc
  rw [h.beq_false (hP a ha) (hP b hb)]
  intro heq
  rw [heq, h.lt_irrefl (hP b hb)] at hab
  cases hab

/-- **There is one arrangement only**: whatever order things are in, they are put in the one in which
they ascend. -/
theorem sortedBy?_of_perm (h : KeySpace P) (key : α → Value) {as bs : List α}
    (hP : ∀ b ∈ bs, P (key b)) (hasc : bs.Pairwise fun a b => lt? (key a) (key b) = some true)
    (hperm : as.Perm bs) : sortedBy? (fun a b => lt? (key a) (key b)) as = some bs := by
  have hP' : ∀ a ∈ as, P (key a) := fun a ha => hP a (hperm.mem_iff.mp ha)
  obtain ⟨cs, hcs, hperm', hasc'⟩ := h.exists_ordered key hP'
    (h.distinct_of_perm key hP hperm (h.distinct_of_ascending key hP hasc))
  have heq : cs = bs := by
    refine (hperm'.trans hperm).eq_of_pairwise (fun a b ha hb hab hba => ?_) hasc' hasc
    have ha' := hP' a (hperm'.mem_iff.mp ha)
    have hba' := h.strict.asymm (hP b hb) ha' hba
    rw [InOrder, hab] at hba'
    cases hba'
  rw [hcs, heq]

end KeySpace

end ContractKit.Value
