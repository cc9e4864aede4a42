import ContractKit.Proofs.Codec.Admitted
import ContractKit.Proofs.Fault.Gather

/-!
# `Proofs/Codec/Keys.lean`: which types are fit for keys

Members of a set and keys of a map have to be hashed, and they are put in order when they are written.
`RanksKeys` is what that asks of a type: of any two different values both can be hashed, and one is less
than the other. Types that are fit for keys all the way down have it (`ranked_of_isKey`), by way of the
order that their values have together.

There are hardly any others. `isKey_of_ranksKeys` goes the other way: a type that ranks its keys hands
this down to its parts, since a tuple or a record is compared where it first differs, and the nodes that
are not fit for keys each have two values that spoil it. Only types that have too few values to notice
are left aside (`Telling`).
-/

set_option autoImplicit false

namespace ContractKit

namespace Value

/-! ## Pairs of values -/

/-- Neither value is equal to the other. -/
def Differ (a b : Value) : Prop := a.beq b = false ∧ b.beq a = false

/-- The two values can be keys of one container: both can be hashed, and one is less than the other. -/
def Ranked (a b : Value) : Prop :=
  a.isHashable = true ∧ b.isHashable = true ∧
    (lt? a b = some true ∧ lt? b a = some false ∨ lt? a b = some false ∧ lt? b a = some true)

/-- One comparison without an answer is enough. -/
theorem not_ranked_of_none {a b : Value} (h : lt? a b = Option.none) : ¬ Ranked a b := by
  intro hranked
  rcases hranked.2.2 with ⟨hlt, -⟩ | ⟨hlt, -⟩
  · rw [h] at hlt
    cases hlt
  · rw [h] at hlt
    cases hlt

theorem not_ranked_of_false {a b : Value} (hab : lt? a b = some false) (hba : lt? b a = some false) :
    ¬ Ranked a b := by
  intro hranked
  rcases hranked.2.2 with ⟨hlt, -⟩ | ⟨-, hlt⟩
  · rw [hab] at hlt
    cases hlt
  · rw [hba] at hlt
    cases hlt

/-- Different values of a key space can be keys of one container. -/
theorem KeySpace.ranked {P : Value → Prop} (h : KeySpace P) {a b : Value} (ha : P a) (hb : P b)
    (hne : a.beq b = false) : Ranked a b := by
  have hne := (h.beq_false ha hb).mp hne
  refine ⟨h.hashable ha, h.hashable hb, ?_⟩
  rcases h.strict.answers ha hb with hlt | hge
  · exact Or.inl ⟨hlt, h.strict.asymm ha hb hlt⟩
  · exact Or.inr ⟨hge, h.lt_of_ne hb ha hge (Ne.symm hne)⟩

/-! ### Items at one place -/

theorem differ_append {xs ys : List Value} {a b : Value} (h : a.beq b = false) :
    beqAll (xs ++ a :: ys) (xs ++ b :: ys) = false := by
  induction xs with
  | nil => rw [List.nil_append, List.nil_append, beqAll, h, Bool.false_and]
  | cons x xs ih => rw [List.cons_append, List.cons_append, beqAll, ih, Bool.and_false]

/-- What stands before the first place where two lists differ does not count. -/
theorem lexLt?_append {xs ys zs : List Value} (h : ∀ x ∈ xs, x.beq x = true) :
    lexLt? (xs ++ ys) (xs ++ zs) = lexLt? ys zs := by
  induction xs with
  | nil => rfl
  | cons x xs ih =>
    rw [List.cons_append, List.cons_append, lexLt?, if_pos (h x (by simp))]
    exact ih fun y hy => h y (by simp [hy])

theorem lexLt?_at {xs ys : List Value} {a b : Value} (h : ∀ x ∈ xs, x.beq x = true)
    (hab : a.beq b = false) : lexLt? (xs ++ a :: ys) (xs ++ b :: ys) = lt? a b := by
  rw [lexLt?_append h, lexLt?, hab]
  rfl

theorem isHashable_of_allHashable {xs : List Value} (h : allHashable xs = true) :
    ∀ x ∈ xs, x.isHashable = true := by
  induction xs with
  | nil => simp
  | cons x xs ih =>
    have hxs : (isHashable x && allHashable xs) = true := h
    rw [Bool.and_eq_true] at hxs
    intro y hy
    rcases List.mem_cons.mp hy with rfl | hy
    · exact hxs.1
    · exact ih hxs.2 y hy

/-- **Values that are made of items and differ at one place can be keys of one container only if the
items there can.** -/
theorem ranked_of_items {mk : List Value → Value} {xs ys : List Value} {a b : Value}
    (hxs : ∀ x ∈ xs, x.beq x = true) (hab : Differ a b)
    (hhash : ∀ zs, (mk zs).isHashable = true → allHashable zs = true)
    (hlt : ∀ x y, lt? (mk (xs ++ x :: ys)) (mk (xs ++ y :: ys)) =
      lexLt? (xs ++ x :: ys) (xs ++ y :: ys))
    (h : Ranked (mk (xs ++ a :: ys)) (mk (xs ++ b :: ys))) : Ranked a b := by
  obtain ⟨ha, hb, horder⟩ := h
  rw [hlt, hlt, lexLt?_at hxs hab.1, lexLt?_at hxs hab.2] at horder
  exact ⟨isHashable_of_allHashable (hhash _ ha) a (by simp),
    isHashable_of_allHashable (hhash _ hb) b (by simp), horder⟩

end Value

namespace Codec

open Value (Differ Ranked KeySpace)

/-! ## The law -/

/-- Any two different values of the type can be keys of one container. -/
def RanksKeys (c : Codec) : Prop :=
  ∀ ⦃a b : Value⦄, c.Admits a → c.Admits b → Differ a b → Ranked a b

/-- **Types that are fit for keys rank them.** It is a property of pairs here; that the pairs fit
together to an order is `keySpace_exact`. -/
theorem ranked_of_isKey {c : Codec} (hkey : c.isKey = true) (hsound : c.Sound) {a b : Value}
    (ha : c.Admits a) (hb : c.Admits b) (hne : a.beq b = false) : Ranked a b :=
  (keySpace_exact hkey hsound).ranked ha.1 hb.1 hne

/-- Whether the node is a choice between classes. -/
def isChoice : Codec → Bool
  | .variants .. => true
  | _ => false

/-- Whether a class compares no more fields than it has. -/
def comparesOwn : Codec → Bool
  | .struct target _ fields =>
    match target.cls.form with
    | .named _ (some n) => decide (n ≤ fields.length)
    | _ => true
  | _ => true

/-- The type has two different values wherever one looks, so what is wrong with its parts shows. Without
this a part that cannot be compared may never be, as in a set of values that are all the same. -/
structure Telling (c : Codec) : Prop where
  differ : ∀ d ∈ c.parts, ∃ a b, d.Admits a ∧ d.Admits b ∧ Differ a b
  choice : ∀ d ∈ c.parts, d.isChoice = false
  compares : ∀ d ∈ c.parts, d.comparesOwn = true

theorem Telling.child {c d : Codec} (h : c.Telling) (hd : d ∈ c.children) : d.Telling :=
  ⟨fun e he => h.differ e (mem_parts_of_child hd he),
    fun e he => h.choice e (mem_parts_of_child hd he),
    fun e he => h.compares e (mem_parts_of_child hd he)⟩

theorem Telling.exists_differ {c : Codec} (h : c.Telling) :
    ∃ a b, c.Admits a ∧ c.Admits b ∧ Differ a b := h.differ c (self_mem_parts c)

theorem exists_admitted (cs : List Codec) (h : ∀ c ∈ cs, ∃ v, c.Admits v) :
    ∃ vs, List.Forall₂ Admits cs vs := by
  induction cs with
  | nil => exact ⟨[], .nil⟩
  | cons c cs ih =>
    obtain ⟨v, hv⟩ := h c (by simp)
    obtain ⟨vs, hvs⟩ := ih fun d hd => h d (by simp [hd])
    exact ⟨v :: vs, .cons hv hvs⟩

/-- Fields can be filled with any value at one place and the same values at all others. -/
theorem exists_fields {before after : List Codec} {d : Codec}
    (hcs : ∀ c ∈ before ++ d :: after, ∃ v, c.Admits v) :
    ∃ xs ys, xs.length = before.length ∧ (∀ x ∈ xs, x.beq x = true) ∧
      ∀ v, d.Admits v → List.Forall₂ Admits (before ++ d :: after) (xs ++ v :: ys) := by
  obtain ⟨xs, hxs⟩ := exists_admitted before fun c hc => hcs c (by simp [hc])
  obtain ⟨ys, hys⟩ := exists_admitted after fun c hc => hcs c (by simp [hc])
  refine ⟨xs, ys, hxs.length_eq.symm, fun x hx => ?_, fun v hv => List.rel_append hxs (.cons hv hys)⟩
  obtain ⟨c, -, hc⟩ := exists_of_forall₂_right hxs hx
  exact hc.beq_self

/-! ## Nodes that are not fit for keys -/

/-- Two sets with one member each, and no order between them. -/
theorem not_ranksKeys_frozenset {member : Codec} {width : PrefixWidth} {order : OrderPolicy}
    {x y : Value} (hx : member.Admits x) (hy : member.Admits y) (hxy : Differ x y) :
    ¬ (Codec.set true member width order).RanksKeys := by
  have hadmits : ∀ z, member.Admits z → (Codec.set true member width order).Admits (.frozenset [z]) := by
    intro z hz
    show (Codec.set true member width order).Admits (setOf true [z])
    refine admits_setOf (fun w hw => ?_) (List.pairwise_singleton _ _)
    rw [List.mem_singleton.mp hw]
    exact hz
  have hbeq : ∀ {z w : Value}, z.beq w = false →
      (Value.frozenset [z]).beq (.frozenset [w]) = false := by
    intro z w h
    simp [Value.beq, Value.members?, Value.allAmong, h]
  have hlt : ∀ z w : Value, Value.lt? (.frozenset [z]) (.frozenset [w]) = some false := by
    intro z w
    simp [Value.lt?, Value.members?]
  intro h
  exact Value.not_ranked_of_false (hlt x y) (hlt y x)
    (h (hadmits x hx) (hadmits y hy) ⟨hbeq hxy.1, hbeq hxy.2⟩)

/-- Nothing is less than an absent value, nor the other way round. -/
theorem not_ranksKeys_optional {item : Codec} {x : Value} (hx : item.Admits x) (hne : x ≠ .none) :
    ¬ (Codec.optional item).RanksKeys := by
  have hdiffer : Differ .none x := by
    constructor
    · cases x with
      | none => exact absurd rfl hne
      | _ => simp [Value.beq]
    · cases x with
      | none => exact absurd rfl hne
      | record cls items => simp [Value.beq, Value.tupleItems?]
      | member enum name number => cases number <;> simp [Value.beq, Value.number?]
      | _ => simp [Value.beq, Value.number?, Value.tupleItems?, Value.members?]
  intro h
  exact Value.not_ranked_of_none rfl (h (admits_optional (Or.inl rfl)) (admits_optional (Or.inr hx)) hdiffer)

/-- Members without numbers are told apart by their names, and from those that have one. -/
theorem differ_or_eq (enum : ClassRef) {m : Member} (hnumber : m.number = none) (m' : Member) :
    Differ (m.value enum) (m'.value enum) ∨ m'.value enum = m.value enum := by
  obtain ⟨name, number⟩ := m
  obtain ⟨name', number'⟩ := m'
  obtain rfl : number = none := hnumber
  cases number' with
  | none =>
    by_cases hname : name' = name
    · exact Or.inr (by rw [hname])
    · left
      simp [Differ, Member.value, Value.beq, hname, Ne.symm hname]
  | some n =>
    left
    simp [Differ, Member.value, Value.beq, Value.number?]

/-- A member without a number has no order with any other. -/
theorem not_ranksKeys_members {enum : ClassRef} {hashable : Bool} {directions : Directions}
    {tag : TagWidth} {cases : List Member}
    (hdistinct : cases.Pairwise fun a b => (a.value enum).beq (b.value enum) = false)
    {m m' : Member} (hm : m ∈ cases) (hm' : m' ∈ cases) (hnumber : m.number = none)
    (hdiffer : Differ (m.value enum) (m'.value enum)) :
    ¬ (Codec.members enum hashable directions tag cases).RanksKeys := by
  intro h
  refine Value.not_ranked_of_none ?_ (h (admits_member hdistinct hm) (admits_member hdistinct hm') hdiffer)
  simp [Member.value, Value.lt?, hnumber]

/-- Records that differ in a field that is not compared, and in no other, are neither less nor greater. -/
theorem not_ranksKeys_struct {target : Target} {directions : Directions} {fields : List Codec}
    {n : Nat} (hform : target.cls.form = .named true (some n)) (hn : n < fields.length)
    (hfields : ∀ d ∈ fields, ∃ a b, d.Admits a ∧ d.Admits b ∧ Differ a b) :
    ¬ (Codec.struct target directions fields).RanksKeys := by
  obtain ⟨before, d, after, rfl, hlen⟩ : ∃ before d after,
      fields = before ++ d :: after ∧ before.length = n :=
    ⟨fields.take n, fields[n], fields.drop (n + 1), by simp, by simp; omega⟩
  obtain ⟨a, b, ha, hb, hab⟩ := hfields d (by simp)
  obtain ⟨xs, ys, hxslen, hxs, hfill⟩ :=
    exists_fields fun c hc => (hfields c hc).imp fun _ h => h.choose_spec.1
  have hbeq : ∀ {x y : Value}, x.beq y = false →
      (Value.record target.cls (xs ++ x :: ys)).beq (.record target.cls (xs ++ y :: ys)) = false := by
    intro x y h
    simp [Value.beq, RecordClass.isPositional, hform, Value.differ_append h]
  have hlt : ∀ x y : Value, Value.lt? (.record target.cls (xs ++ x :: ys))
      (.record target.cls (xs ++ y :: ys)) = some false := by
    intro x y
    have htake : (xs ++ y :: ys).take n = xs ++ [] := by
      rw [List.append_nil, ← hlen, ← hxslen, List.take_left]
    -- the fields before the place are the same, and those from it on face nothing
    simp only [Value.lt?, hform, beq_self_eq_true, if_true]
    rw [htake, Value.lexLt?_append hxs, Value.lexLt?]
  intro h
  exact Value.not_ranked_of_false (hlt a b) (hlt b a)
    (h (admits_struct (hfill a ha)) (admits_struct (hfill b hb)) ⟨hbeq hab.1, hbeq hab.2⟩)

/-! ## Handing the law down -/

/-- A type of tuples or records that ranks its keys has only parts that do: what differs at the place of
the part alone is compared there. -/
theorem RanksKeys.of_items {c d : Codec} {cs : List Codec} {mk : List Value → Value}
    (h : c.RanksKeys) (hcs : ∀ e ∈ cs, ∃ v, e.Admits v) (hd : d ∈ cs)
    (hadmits : ∀ vs, List.Forall₂ Admits cs vs → c.Admits (mk vs))
    (hbeq : ∀ vs ws, (mk vs).beq (mk ws) = Value.beqAll vs ws)
    (hhash : ∀ vs, (mk vs).isHashable = true → Value.allHashable vs = true)
    (hlt : ∀ vs ws, vs.length = cs.length → ws.length = cs.length →
      Value.lt? (mk vs) (mk ws) = Value.lexLt? vs ws) : d.RanksKeys := by
  intro a b ha hb hab
  obtain ⟨before, after, rfl⟩ := List.append_of_mem hd
  obtain ⟨xs, ys, -, hxs, hfill⟩ := exists_fields hcs
  have hlen : ∀ v, (xs ++ v :: ys).length = (before ++ d :: after).length := by
    intro v
    have := (hfill a ha).length_eq
    simpa using this.symm
  refine Value.ranked_of_items hxs hab hhash (fun x y => hlt _ _ (hlen x) (hlen y)) ?_
  apply h (hadmits _ (hfill a ha)) (hadmits _ (hfill b hb))
  rw [Differ, hbeq, hbeq]
  exact ⟨Value.differ_append hab.1, Value.differ_append hab.2⟩

theorem RanksKeys.of_tuple {c d : Codec} {cs : List Codec} (h : c.RanksKeys)
    (hcs : ∀ e ∈ cs, ∃ v, e.Admits v) (hd : d ∈ cs)
    (hadmits : ∀ vs, List.Forall₂ Admits cs vs → c.Admits (.tuple vs)) : d.RanksKeys := by
  apply h.of_items hcs hd hadmits
  · intro vs ws
    simp [Value.beq, Value.tupleItems?]
  · intro vs hvs
    rwa [Value.isHashable] at hvs
  · intro vs ws _ _
    simp [Value.lt?, Value.tupleItems?]

/-- The items of tuples of any length: those of length one are enough to see it. -/
theorem RanksKeys.of_varTuple {c item : Codec} (h : c.RanksKeys) (hitem : ∃ v, item.Admits v)
    (hadmits : ∀ vs, (∀ x ∈ vs, item.Admits x) → c.Admits (.tuple vs)) : item.RanksKeys := by
  have hitems : ∀ e ∈ [item], ∃ v, e.Admits v := by simpa using hitem
  refine h.of_tuple hitems (by simp) fun vs hvs => ?_
  apply hadmits
  intro x hx
  obtain ⟨e, he, hx⟩ := exists_of_forall₂_right hvs hx
  rwa [List.mem_singleton.mp he] at hx

theorem RanksKeys.of_struct {target : Target} {directions : Directions} {fields : List Codec}
    (h : (Codec.struct target directions fields).RanksKeys)
    (hnode : (Codec.struct target directions fields).isKeyNode = true)
    (hfields : ∀ e ∈ fields, ∃ v, e.Admits v) {d : Codec} (hd : d ∈ fields) : d.RanksKeys := by
  have hform : target.cls.form = .positional ∨ target.cls.form = .named true (some fields.length) := by
    simpa [isKeyNode] using hnode
  apply h.of_items hfields hd fun vs hvs => admits_struct hvs
  · intro vs ws
    rcases hform with hform | hform
    · simp [Value.beq, RecordClass.isPositional, hform, Value.tupleItems?]
    · simp [Value.beq, RecordClass.isPositional, hform]
  · intro vs hvs
    rw [Value.isHashable, Bool.and_eq_true] at hvs
    exact hvs.2
  · intro vs ws _ hws
    rcases hform with hform | hform
    · simp [Value.lt?, hform, Value.tupleItems?, RecordClass.isPositional]
    · simp [Value.lt?, hform, List.take_of_length_le (Nat.le_of_eq hws)]

/-! ## All types -/

/-- An absent value has no place among the others, so an optional value is no key. -/
theorem not_ranksKeys_of_optional {item : Codec} (htelling : (Codec.optional item).Telling) :
    ¬(Codec.optional item).RanksKeys := by
  intro h
  obtain ⟨x, y, hx, hy, hxy⟩ := (htelling.child (d := item) (by simp [children])).exists_differ
  by_cases hnone : x = .none
  · refine not_ranksKeys_optional hy ?_ h
    rintro rfl
    rw [hnone] at hxy
    simp [Differ, Value.beq] at hxy
  · exact not_ranksKeys_optional hx hnone h

/-- A member that is no number has no order against one that it differs from. It cannot be both of two
that differ, so it does differ from one of them. -/
theorem isKeyNode_members {enum : ClassRef} {hashable : Bool} {directions : Directions}
    {tag : TagWidth} {cases : List Member} {a b : Value}
    (hdistinct : cases.Pairwise fun a b => (a.value enum).beq (b.value enum) = false)
    (ha : (Codec.members enum hashable directions tag cases).Admits a)
    (hb : (Codec.members enum hashable directions tag cases).Admits b) (hab : Differ a b)
    (h : (Codec.members enum hashable directions tag cases).RanksKeys) :
    (Codec.members enum hashable directions tag cases).isKeyNode = true := by
  obtain ⟨ma, hma, rfl⟩ := ha.1
  obtain ⟨mb, hmb, rfl⟩ := hb.1
  refine List.all_eq_true.mpr fun m hm => ?_
  by_contra hnone
  have hnumber : m.number = none := by simpa using hnone
  rcases differ_or_eq enum hnumber ma with hdiffer | heqa
  · exact not_ranksKeys_members hdistinct hm hma hnumber hdiffer h
  rcases differ_or_eq enum hnumber mb with hdiffer | heqb
  · exact not_ranksKeys_members hdistinct hm hmb hnumber hdiffer h
  · have hself := hb.beq_self
    rw [heqa, ← heqb, Differ, hself] at hab
    cases hab.1

/-- A class of fields is hashable when it is frozen, and has an order when it declares one; and the
order is of all the fields, or two values that differ in the others would have none. -/
theorem isKeyNode_struct {target : Target} {directions : Directions} {fields : List Codec}
    {a b : Value} (htelling : (Codec.struct target directions fields).Telling)
    (ha : (Codec.struct target directions fields).Admits a)
    (hb : (Codec.struct target directions fields).Admits b) (hab : Differ a b)
    (h : (Codec.struct target directions fields).RanksKeys) :
    (Codec.struct target directions fields).isKeyNode = true := by
  have hashed := (h ha hb hab).1
  obtain ⟨vs, rfl, -⟩ := ha.1
  obtain ⟨ws, rfl, -⟩ := hb.1
  have hcompares := htelling.compares _ (self_mem_parts _)
  cases hform : target.cls.form with
  | positional => simp [isKeyNode, hform]
  | named frozen ordered =>
    cases frozen with
    | false => simp [Value.isHashable, RecordClass.isHashable, hform] at hashed
    | true =>
      cases ordered with
      | none =>
        refine absurd (h ha hb hab) (Value.not_ranked_of_none ?_)
        simp [Value.lt?, hform]
      | some n =>
        have hle : n ≤ fields.length := by simpa [comparesOwn, hform] using hcompares
        rcases Nat.lt_or_eq_of_le hle with hlt | rfl
        · refine absurd h (not_ranksKeys_struct hform hlt fun d hd => ?_)
          exact (htelling.child hd).exists_differ
        · simp [isKeyNode, hform]

/-- A node of a type that ranks its keys is fit for keys. -/
theorem isKeyNode_of_ranksKeys {c : Codec} (hsound : c.Sound) (htelling : c.Telling)
    (h : c.RanksKeys) : c.isKeyNode = true := by
  obtain ⟨a, b, ha, hb, hab⟩ := htelling.exists_differ
  have hashed := (h ha hb hab).1
  cases c with
  | int _ | bool | accountAddress | contractAddress | bytes _ _ | text _ _ | tuple _ | varTuple _ => rfl
  -- lists, sets and dictionaries have no hash
  | sequence tuples item width order =>
    cases tuples with
    | true => rfl
    | false =>
      obtain ⟨vs, rfl, -⟩ := ha.1
      cases hashed
  | map key value width order =>
    obtain ⟨es, rfl, -⟩ := ha.1
    cases hashed
  | set frozen member width order =>
    cases frozen with
    | false =>
      obtain ⟨vs, rfl, -⟩ := ha.1
      cases hashed
    | true =>
      obtain ⟨x, y, hx, hy, hxy⟩ := (htelling.child (d := member) (by simp [children])).exists_differ
      exact absurd h (not_ranksKeys_frozenset hx hy hxy)
  | optional item => exact absurd h (not_ranksKeys_of_optional htelling)
  | variants enum directions tag cases => cases htelling.choice _ (self_mem_parts _)
  | unit target directions =>
    obtain rfl : a = _ := ha.1
    obtain rfl : b = _ := hb.1
    -- there is one value only
    have hself := hb.beq_self
    rw [hab.1] at hself
    cases hself
  | members _ _ _ _ _ => exact isKeyNode_members hsound.node.2 ha hb hab h
  | struct _ _ _ => exact isKeyNode_struct htelling ha hb hab h

/-- **A type in which differences show ranks its keys only if it is fit for keys all the way down.** By
induction over the codec: such a type hands this down to its parts, and a node that is not fit for keys
has two values that it does not rank. -/
theorem isKey_of_ranksKeys {c : Codec} (hsound : c.Sound) (htelling : c.Telling)
    (h : c.RanksKeys) : c.isKey = true := by
  induction c using induct with
  | h c ih =>
    have hnode := isKeyNode_of_ranksKeys hsound htelling h
    have hvalues : ∀ d ∈ c.children, ∃ v, d.Admits v := fun d hd =>
      (htelling.child hd).exists_differ.imp fun _ h => h.choose_spec.1
    have hchildren : ∀ d ∈ c.children, d.isKey = true := by
      intro d hd
      refine ih d hd (hsound.child hd) (htelling.child hd) ?_
      cases c with
      | sequence tuples item width order =>
        obtain rfl : tuples = true := hnode
        obtain rfl : d = item := by simpa [children] using hd
        exact h.of_varTuple (hvalues d hd) fun vs hvs => admits_sequence hvs
      | varTuple item =>
        obtain rfl : d = item := by simpa [children] using hd
        exact h.of_varTuple (hvalues d hd) fun vs hvs => admits_varTuple hvs
      | tuple items => exact h.of_tuple hvalues hd fun vs hvs => admits_tuple hvs
      | struct target directions fields => exact h.of_struct hnode hvalues hd
      | set _ _ _ _ | map _ _ _ _ | optional _ | variants _ _ _ _ => cases hnode
      | _ => cases hd
    refine List.all_eq_true.mpr fun e he => ?_
    rcases mem_parts.mp he with rfl | ⟨d, hd, he⟩
    · exact hnode
    · exact List.all_eq_true.mp (hchildren d hd) e he

end Codec

end ContractKit
