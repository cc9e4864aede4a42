import ContractKit.Proofs.Codec.Walk
import ContractKit.Proofs.Wire.Tally

/-!
# `Proofs/Codec/Size.lean`: how few bytes a value takes

`minSize` is the size of the smallest values of a codec. No value takes fewer bytes, whether it is read
or written (`atLeast_read`, `minSize_le_of_emit`), and where all values can be read there is one
that takes no more (`exists_takes_minSize`). Counts come from outside and nothing compares them with
the bytes that are there. What keeps them in bounds is that the items of a container have a size
(`itemsSized`): then no container reads more items than there are bytes (`items_tally_le`).
-/

set_option autoImplicit false

namespace ContractKit.Codec

open Read (skip inOrder AtLeast)

/-! ## The smallest values -/

mutual

/-- The size of the smallest values of a codec. -/
def minSize : Codec → Nat
  | .int format => format.width
  | .bool => 1
  | .accountAddress => 32
  | .contractAddress => 16
  | .bytes width _ | .text width _ | .sequence _ _ width _ | .set _ _ width _ | .map _ _ width _ =>
    width.bytes
  | .varTuple _ => PrefixWidth.standard.bytes
  | .optional _ => 1
  | .tuple items => minSizeAll items
  | .struct _ _ fields => minSizeAll fields
  | .unit .. => 0
  | .variants _ _ tag cases => tag.bytes + (minSizeCases cases).getD 0
  | .members _ _ _ tag _ => tag.bytes

/-- The size of the smallest values of some codecs, one behind the other. -/
def minSizeAll : List Codec → Nat
  | [] => 0
  | c :: cs => minSize c + minSizeAll cs

/-- The size of the smallest fields of a variant, if there is a variant. -/
def minSizeCases : List (Target × List Codec) → Option Nat
  | [] => none
  | (_, fields) :: rest =>
    match minSizeCases rest with
    | none => some (minSizeAll fields)
    | some n => some (min (minSizeAll fields) n)

end

/-- No variant has smaller fields. -/
theorem minSizeCases_le : ∀ {cases : List (Target × List Codec)} {case : Target × List Codec},
    case ∈ cases → (minSizeCases cases).getD 0 ≤ minSizeAll case.2
  | (target, fields) :: rest, case, h => by
    rw [minSizeCases]
    rcases List.mem_cons.mp h with rfl | h
    · cases minSizeCases rest with
      | none => exact Nat.le_refl _
      | some n => exact Nat.min_le_left _ _
    · have hle := minSizeCases_le h
      cases hrest : minSizeCases rest with
      | none =>
        -- a list with a variant in it has a smallest one
        cases rest with
        | nil => cases h
        | cons case' rest' =>
          rw [minSizeCases] at hrest
          split at hrest <;> cases hrest
      | some n =>
        rw [hrest] at hle
        exact (Nat.min_le_right _ _).trans hle

/-- Some variant has fields as small as that. -/
theorem exists_minSizeCases : ∀ {cases : List (Target × List Codec)}, cases ≠ [] →
    ∃ case ∈ cases, minSizeCases cases = some (minSizeAll case.2)
  | [], h => absurd rfl h
  | (target, fields) :: rest, _ => by
    rw [minSizeCases]
    by_cases hrest : rest = []
    · subst hrest
      exact ⟨(target, fields), by simp, rfl⟩
    · obtain ⟨case, hcase, heq⟩ := exists_minSizeCases hrest
      rw [heq]
      rcases Nat.le_total (minSizeAll fields) (minSizeAll case.2) with hle | hle
      · exact ⟨(target, fields), by simp, by simp [Nat.min_eq_left hle]⟩
      · exact ⟨case, by simp [hcase], by simp [Nat.min_eq_right hle]⟩

/-! ## Nothing is smaller -/

theorem atLeast_walkAll : ∀ {cs : List Codec}, (∀ c ∈ cs, c.walk.AtLeast c.minSize) →
    (inOrder (walkAll cs)).AtLeast (minSizeAll cs)
  | [], _ => Read.atLeast_zero _
  | c :: cs, hcs =>
    (hcs c (by simp)).bind fun _ => atLeast_walkAll fun d hd => hcs d (by simp [hd])

/-- What skips the values of a codec skips no less than the smallest of them. -/
theorem atLeast_walk {c : Codec} (hsound : c.Sound) : c.walk.AtLeast c.minSize := by
  induction c using induct with
  | h c ih =>
    have ih' : ∀ d ∈ c.children, d.walk.AtLeast d.minSize := fun d hd => ih d hd (hsound.child hd)
    -- a count is skipped whatever it counts, so containers are as large as their prefix
    cases c with
    | int format => exact Read.atLeast_skip _
    | bool => exact Read.atLeast_skip 1
    | accountAddress => exact Read.atLeast_skip 32
    | contractAddress => exact Read.atLeast_skip 16
    | bytes width _ => exact Read.atLeast_skipCounted width _
    | text width _ => exact Read.atLeast_skipCounted width _
    | sequence _ _ width _ => exact Read.atLeast_skipCounted width _
    | set _ _ width _ => exact Read.atLeast_skipCounted width _
    | map _ _ width _ => exact Read.atLeast_skipCounted width _
    | varTuple _ => exact Read.atLeast_skipCounted _ _
    | optional item => exact Read.atLeast_skipTagged rfl fun p _ => Read.atLeast_zero p
    | tuple items => exact atLeast_walkAll ih'
    | struct _ _ fields => exact atLeast_walkAll ih'
    | unit _ _ => exact Read.atLeast_zero _
    | variants enum directions tag cases =>
      refine Read.atLeast_skipTagged ?_ fun p hp => ?_
      · rw [walkCases_eq, List.length_map]
        exact TagWidth.bytes_of_forCount hsound.node.1
      · rw [walkCases_eq] at hp
        obtain ⟨case, hcase, rfl⟩ := List.mem_map.mp hp
        refine AtLeast.mono (atLeast_walkAll fun d hd => ?_) (minSizeCases_le hcase)
        exact ih' d (mem_children_of_case hcase hd)
    | members enum _ _ tag cases =>
      refine Read.atLeast_skipTagged (m := 0) ?_ fun p _ => Read.atLeast_zero p
      rw [List.length_map]
      exact TagWidth.bytes_of_forCount hsound.node.1

/-- **Nothing that is read is smaller.** It comes from the walk over the value, which takes the same
bytes and asks for none of its conditions. -/
theorem atLeast_read {c : Codec} (hsound : c.Sound) : c.read.AtLeast c.minSize :=
  fun _ _ h => atLeast_walk hsound (takes_walk_of_read hsound h)

/-- **Nothing that is written is smaller.** -/
theorem minSize_le_of_emit {c : Codec} (hsound : c.Sound) {v : Value} {data : Bytes}
    (h : (c.emit v).toBytes = .ok data) : c.minSize ≤ data.length :=
  atLeast_walk hsound (takes_walk_of_emit hsound h)

/-! ## Values without bytes -/

/-- Whether a node has no bytes of its own and takes as many as its parts do. -/
def isBareNode : Codec → Bool
  | .tuple _ | .struct .. | .unit .. => true
  | _ => false

theorem minSizeAll_eq_zero_iff : ∀ {cs : List Codec}, minSizeAll cs = 0 ↔ ∀ c ∈ cs, c.minSize = 0
  | [] => by simp [minSizeAll]
  | c :: cs => by
    rw [minSizeAll, Nat.add_eq_zero_iff, minSizeAll_eq_zero_iff, List.forall_mem_cons]

/-- The codecs whose values may take no bytes are those made of tuples and classes with nothing in
them, however they are nested. -/
theorem minSize_eq_zero_iff {c : Codec} (hint : ∀ format, Codec.int format ∈ c.parts → 0 < format.width) :
    c.minSize = 0 ↔ ∀ d ∈ c.parts, d.isBareNode = true := by
  induction c using induct with
  | h c ih =>
    have ih' : ∀ d ∈ c.children, (d.minSize = 0 ↔ ∀ e ∈ d.parts, e.isBareNode = true) :=
      fun d hd => ih d hd fun format hf => hint format (mem_parts_of_child hd hf)
    have hnode : c.minSize = 0 ↔ c.isBareNode = true ∧ ∀ d ∈ c.children, d.minSize = 0 := by
      have hpos : ∀ width : PrefixWidth, 0 < width.bytes := fun width => by cases width <;> decide
      have htag : ∀ tag : TagWidth, 0 < tag.bytes := fun tag => by cases tag <;> decide
      cases c with
      | tuple _ | struct _ _ _ => simp [minSize, isBareNode, children, minSizeAll_eq_zero_iff]
      | unit _ _ => simp [minSize, isBareNode, children]
      | int format =>
        have := hint format (self_mem_parts _)
        simp only [minSize, isBareNode, Bool.false_eq_true, false_and, iff_false]
        omega
      | bytes width _ | text width _ | sequence _ _ width _ | set _ _ width _ | map _ _ width _ =>
        have := hpos width
        simp only [minSize, isBareNode, Bool.false_eq_true, false_and, iff_false]
        omega
      | variants _ _ tag _ | members _ _ _ tag _ =>
        have := htag tag
        simp only [minSize, isBareNode, Bool.false_eq_true, false_and, iff_false]
        omega
      | _ => simp [minSize, isBareNode, PrefixWidth.standard, PrefixWidth.bytes]
    rw [hnode, parts_eq, List.forall_mem_cons, List.forall_mem_flatMap]
    exact and_congr_right fun _ => forall₂_congr ih'

/-! ## Something is as small -/

/-- Whether an enumeration has a case. -/
def hasCase : Codec → Bool
  | .variants _ _ _ cases => !cases.isEmpty
  | .members _ _ _ _ cases => !cases.isEmpty
  | _ => true

/-- A codec of which some value can be read: all its classes can be, accept what they are given, and
have a case. -/
structure Readable (c : Codec) : Prop where
  reads : c.canRead = true
  builds : ∀ d ∈ c.parts, d.buildsAll = true
  cases : ∀ d ∈ c.parts, d.hasCase = true

theorem Readable.child {c d : Codec} (h : c.Readable) (hd : d ∈ c.children) : d.Readable :=
  ⟨can_of_child h.reads hd, fun e he => h.builds e (mem_parts_of_child hd he),
    fun e he => h.cases e (mem_parts_of_child hd he)⟩

/-- No items behind a count. -/
theorem takes_noItems {α : Type} (width : PrefixWidth) (item : Read α) :
    (Read.prefixedItems width item).Takes (LittleEndian.digits width.bytes 0) [] := by
  refine Read.takes_prefixedItems.mpr ⟨_, [], (List.append_nil _).symm, ?_, rfl⟩
  exact Emit.toBytes_count.mpr ⟨Nat.zero_le _, rfl⟩

/-- No bytes behind a count. -/
theorem toBytes_noBytes (width : PrefixWidth) :
    (Emit.prefixedBytes width []).toBytes = .ok (LittleEndian.digits width.bytes 0) :=
  Emit.toBytes_prefixedBytes.mpr ⟨Nat.zero_le _, (List.append_nil _).symm⟩

theorem exists_takes_int (format : LittleEndian.Format) :
    ∃ data n, (Read.int format).Takes data n ∧ data.length = format.width := by
  have hbytes : (Read.getBytes format.width).Takes (List.replicate format.width 0) _ :=
    Read.takes_getBytes.mpr ⟨rfl, List.length_replicate⟩
  exact ⟨_, _, Read.takes_map.mpr ⟨_, hbytes, rfl⟩, List.length_replicate⟩

/-- Some value of the codec takes no more bytes than its smallest size. It is named to be carried from
what a codec delegates to on to the codec, one kind at a time. -/
def TakesMinSize (c : Codec) : Prop := ∃ data v, c.read.Takes data v ∧ data.length = c.minSize

/-- The smallest values one behind the other. -/
theorem exists_takes_readEach : ∀ {cs : List Codec}, (∀ c ∈ cs, c.TakesMinSize) →
    ∃ data vs, (readEach cs).Takes data vs ∧ data.length = minSizeAll cs
  | [], _ => ⟨[], [], ⟨rfl, rfl⟩, rfl⟩
  | c :: cs, hcs => by
    obtain ⟨front, v, hv, hfront⟩ := hcs c (by simp)
    obtain ⟨rest, vs, hvs, hrest⟩ := exists_takes_readEach fun d hd =>
      hcs d (List.mem_cons_of_mem c hd)
    refine ⟨front ++ rest, v :: vs, takes_readEach_cons.mpr ⟨v, vs, front, rest, rfl, rfl, hv, hvs⟩, ?_⟩
    rw [List.length_append, hfront, hrest, minSizeAll]

theorem takesMinSize_contractAddress : TakesMinSize .contractAddress := by
  obtain ⟨data, n, hn, hlen⟩ := exists_takes_int ⟨8, false⟩
  have hboth : Codec.contractAddress.read.Takes (data ++ data) (.contractAddress n n) :=
    Read.takes_bind.mpr ⟨n, data, data, rfl, hn, Read.takes_map.mpr ⟨n, hn, rfl⟩⟩
  refine ⟨_, _, hboth, ?_⟩
  rw [List.length_append, hlen]
  rfl

/-- Bytes, texts and containers are taken empty, so only the count is there. -/
theorem takesMinSize_bytes {width : PrefixWidth} {order : OrderPolicy} :
    TakesMinSize (.bytes width order) :=
  ⟨_, _, Read.takes_map.mpr ⟨[], Read.takes_prefixedBytes.mpr (toBytes_noBytes width), rfl⟩,
    LittleEndian.length_digits _ _⟩

theorem takesMinSize_text {width : PrefixWidth} {order : OrderPolicy} :
    TakesMinSize (.text width order) :=
  ⟨_, _, Read.takes_map.mpr ⟨"", Read.takes_prefixedText.mpr (toBytes_noBytes width), rfl⟩,
    LittleEndian.length_digits _ _⟩

theorem takesMinSize_sequence {tuples : Bool} {item : Codec} {width : PrefixWidth}
    {order : OrderPolicy} : TakesMinSize (.sequence tuples item width order) :=
  ⟨_, _, takes_sequence.mpr ⟨[], takes_noItems width _, rfl⟩, LittleEndian.length_digits _ _⟩

theorem takesMinSize_varTuple {item : Codec} : TakesMinSize (.varTuple item) :=
  ⟨_, _, takes_varTuple.mpr ⟨[], takes_noItems _ _, rfl⟩, LittleEndian.length_digits _ _⟩

theorem takesMinSize_set {frozen : Bool} {member : Codec} {width : PrefixWidth}
    {order : OrderPolicy} : TakesMinSize (.set frozen member width order) :=
  ⟨_, _, takes_set.mpr ⟨[], takes_noItems width _, trivial, rfl⟩, LittleEndian.length_digits _ _⟩

theorem takesMinSize_map {key value : Codec} {width : PrefixWidth} {order : OrderPolicy} :
    TakesMinSize (.map key value width order) :=
  ⟨_, _, takes_map.mpr ⟨[], takes_noItems width _, trivial, rfl⟩, LittleEndian.length_digits _ _⟩

theorem takesMinSize_tuple {items : List Codec} (hitems : ∀ d ∈ items, d.TakesMinSize) :
    TakesMinSize (.tuple items) := by
  obtain ⟨data, vs, hvs, hlen⟩ := exists_takes_readEach hitems
  exact ⟨data, _, takes_tuple.mpr ⟨vs, hvs, rfl⟩, hlen⟩

theorem takesMinSize_struct {target : Target} {directions : Directions} {fields : List Codec}
    (hreads : directions.reads = true) (hbuilds : target.rejection.isNone = true)
    (hfields : ∀ d ∈ fields, d.TakesMinSize) :
    TakesMinSize (.struct target directions fields) := by
  obtain ⟨data, vs, hvs, hlen⟩ := exists_takes_readEach hfields
  exact ⟨data, _, takes_struct.mpr ⟨hreads, vs, hvs, build_eq hbuilds vs⟩, hlen⟩

/-- Of variants the smallest case is taken, whichever tag it has. -/
theorem takesMinSize_variants {enum : ClassRef} {directions : Directions} {tag : TagWidth}
    {cases : List (Target × List Codec)} (hreads : directions.reads = true)
    (htag : TagWidth.forCount cases.length = .ok tag) (hne : cases ≠ [])
    (hbuilds : ∀ case ∈ cases, case.1.rejection.isNone = true)
    (hfields : ∀ case ∈ cases, ∀ d ∈ case.2, d.TakesMinSize) :
    TakesMinSize (.variants enum directions tag cases) := by
  obtain ⟨case, hmem, hmin⟩ := exists_minSizeCases hne
  obtain ⟨i, hi⟩ := List.mem_iff_getElem?.mp hmem
  obtain ⟨front, hfront, hlen⟩ :=
    exists_toBytes_emitTag htag (List.getElem?_eq_some_iff.mp hi).1
  obtain ⟨rest, vs, hvs, hrest⟩ := exists_takes_readEach (hfields case hmem)
  refine ⟨front ++ rest, _, takes_variants.mpr
    ⟨hreads, i, case, vs, front, rest, rfl, hfront, hi, hvs, build_eq (hbuilds case hmem) vs⟩, ?_⟩
  rw [List.length_append, hlen, hrest, minSize, hmin, Option.getD_some]

theorem takesMinSize_members {enum : ClassRef} {hashable : Bool} {directions : Directions}
    {tag : TagWidth} {cases : List Member} (hreads : directions.reads = true)
    (htag : TagWidth.forCount cases.length = .ok tag) (hne : cases ≠ []) :
    TakesMinSize (.members enum hashable directions tag cases) := by
  obtain ⟨m, rest, rfl⟩ := List.exists_cons_of_ne_nil hne
  obtain ⟨data, hdata, hlen⟩ := exists_toBytes_emitTag (i := 0) htag (by simp)
  exact ⟨data, _, takes_members.mpr ⟨hreads, 0, m, hdata, rfl, rfl⟩, hlen⟩

/-- **Some value has that size**, if any can be read. So the smallest size is no mere bound. -/
theorem exists_takes_minSize {c : Codec} (hsound : c.Sound) (hreadable : c.Readable) :
    ∃ data v, c.read.Takes data v ∧ data.length = c.minSize := by
  induction c using induct with
  | h c ih =>
    have ih' : ∀ d ∈ c.children, d.TakesMinSize :=
      fun d hd => ih d hd (hsound.child hd) (hreadable.child hd)
    have hbuilds := hreadable.builds c (self_mem_parts c)
    have hcase := hreadable.cases c (self_mem_parts c)
    have hderives := (can_iff_children.mp hreadable.reads).1
    cases c with
    | int format =>
      obtain ⟨data, n, hn, hlen⟩ := exists_takes_int format
      exact ⟨data, _, Read.takes_map.mpr ⟨n, hn, rfl⟩, hlen⟩
    | bool => exact ⟨[0], _, Read.takes_map.mpr ⟨false, Read.takes_bool.mpr rfl, rfl⟩, rfl⟩
    | accountAddress =>
      have hbytes : (Read.getBytes 32).Takes (List.replicate 32 0) _ :=
        Read.takes_getBytes.mpr ⟨rfl, rfl⟩
      exact ⟨_, _, Read.takes_map.mpr ⟨_, hbytes, rfl⟩, rfl⟩
    | contractAddress => exact takesMinSize_contractAddress
    | bytes _ _ => exact takesMinSize_bytes
    | text _ _ => exact takesMinSize_text
    | sequence _ _ _ _ => exact takesMinSize_sequence
    | varTuple _ => exact takesMinSize_varTuple
    | set _ _ _ _ => exact takesMinSize_set
    | map _ _ _ _ => exact takesMinSize_map
    | optional _ => exact ⟨[0], .none, takes_optional.mpr (Or.inl ⟨rfl, rfl⟩), rfl⟩
    | tuple _ => exact takesMinSize_tuple ih'
    | struct _ _ _ => exact takesMinSize_struct hderives hbuilds ih'
    | unit target directions =>
      exact ⟨[], _, takes_unit.mpr ⟨hderives, rfl, build_eq hbuilds []⟩, rfl⟩
    | variants _ _ _ cases =>
      have hne : cases ≠ [] := by
        rintro rfl
        cases hcase
      exact takesMinSize_variants hderives hsound.node.1 hne (List.all_eq_true.mp hbuilds)
        fun case hmem d hd => ih' d (mem_children_of_case hmem hd)
    | members _ _ _ _ cases =>
      have hne : cases ≠ [] := by
        rintro rfl
        cases hcase
      exact takesMinSize_members hderives hsound.node.1 hne

/-! ## Containers -/

/-- Whether the items of a container take a byte at least: the items of a list, the members of a set,
and the entries of a map, which are a key and then a value. -/
def itemsSized : Codec → Bool
  | .sequence _ item _ _ | .varTuple item | .set _ item _ _ => decide (0 < item.minSize)
  | .map key value _ _ => decide (0 < key.minSize + value.minSize)
  | _ => true

/-- The width of the count that the values of a codec start with, if they do. -/
def countWidth? : Codec → Option PrefixWidth
  | .bytes width _ | .text width _ | .sequence _ _ width _ | .set _ _ width _ | .map _ _ width _ =>
    some width
  | .varTuple _ => some .standard
  | _ => none

/-- What comes of reading a container, with the number of items that are read to their end. Byte strings
and texts have bytes for items. Other codecs have no items of their own. -/
def tally : Codec → Bytes → Read.Tally Value
  | .bytes width _ => Read.tallyBytes width fun data => .done (.bytes data)
  | .text width _ => Read.tallyBytes width fun data => (Read.textOf data).bind fun s => .done (.text s)
  | .sequence tuples item width _ =>
    Read.tally width ⟨false, false⟩ id item.read fun vs => if tuples then .tuple vs else .list vs
  | .varTuple item => Read.tally .standard ⟨false, false⟩ id item.read .tuple
  | .set frozen member width order => Read.tally width (keyCheck order) id member.read (setOf frozen)
  | .map key value width order =>
    Read.tally width (keyCheck order) (·.1) (Read.entry key.read value.read) fun es =>
      .dict (Value.entriesOf es)
  | c => fun data => ⟨0, (c.read.run data).1, (c.read.run data).2⟩

/-- **Counting the items does not change what is read.** The counting reader is a definition of the
proofs, and this ties it to the one that runs. -/
theorem run_eq_tally (c : Codec) (data : Bytes) :
    c.read.run data = ((c.tally data).outcome, (c.tally data).rest) := by
  cases c with
  | bytes width order => exact Read.run_countedBytes width _ data
  | text width order =>
    rw [read, Read.prefixedText, Read.bind_bind]
    exact Read.run_countedBytes width _ data
  | sequence tuples item width order =>
    rw [read, ← Read.keyed_unchecked]
    exact Read.run_counted width _ data
  | varTuple item =>
    rw [read, ← Read.keyed_unchecked]
    exact Read.run_counted _ _ data
  | set frozen member width order => exact Read.run_counted width _ data
  | map key value width order => exact Read.run_counted width _ data
  | _ => rfl

/-- An entry is no smaller than a key and a value. -/
theorem atLeast_entry {key value : Codec} (hkey : key.Sound) (hvalue : value.Sound) :
    (Read.entry key.read value.read).AtLeast (key.minSize + value.minSize) :=
  (atLeast_read hkey).bind fun _ => (atLeast_read hvalue).bind fun _ => Read.atLeast_zero _

/-- What a container reads behind its count: that many bytes, or that many items of a byte at least. -/
theorem tally_cases {c : Codec} (hsound : c.Sound) (hsized : c.itemsSized = true)
    {P : PrefixWidth → (Bytes → Read.Tally Value) → Prop}
    (bytes : ∀ width next, P width (Read.tallyBytes width next))
    (items : ∀ {α : Type} width check (key : α → Value) (item : Read α) build, item.AtLeast 1 →
      P width (Read.tally width check key item build))
    {width : PrefixWidth} (hwidth : c.countWidth? = some width) : P width c.tally := by
  have hitem : ∀ {item : Codec}, item ∈ c.children → 0 < item.minSize → item.read.AtLeast 1 :=
    fun hmem hpos => (atLeast_read (hsound.child hmem)).mono hpos
  -- bytes are counted one by one; items take a byte at least because the codec says they are sized
  cases c with
  | bytes _ _ | text _ _ =>
    cases hwidth
    exact bytes width _
  | sequence tuples item _ _ =>
    cases hwidth
    exact items width ⟨false, false⟩ id item.read (fun vs => if tuples then .tuple vs else .list vs)
      (hitem (by simp [children]) (of_decide_eq_true hsized))
  | varTuple item =>
    cases hwidth
    exact items .standard ⟨false, false⟩ id item.read .tuple
      (hitem (by simp [children]) (of_decide_eq_true hsized))
  | set frozen member _ order =>
    cases hwidth
    exact items width (keyCheck order) id member.read (setOf frozen)
      (hitem (by simp [children]) (of_decide_eq_true hsized))
  | map key value _ order =>
    cases hwidth
    have hentry := atLeast_entry (hsound.child (d := key) (by simp [children]))
      (hsound.child (d := value) (by simp [children]))
    exact items width (keyCheck order) (·.1) (Read.entry key.read value.read)
      (fun es => .dict (Value.entriesOf es))
      (hentry.mono (of_decide_eq_true hsized))
  | _ => cases hwidth

theorem items_tally_of_none {c : Codec} (h : c.countWidth? = none) (data : Bytes) :
    (c.tally data).items = 0 := by
  cases c <;> first | rfl | cases h

/-- **A container reads no more items than there are bytes**, whatever its count says and whatever comes
of it. -/
theorem items_tally_le {c : Codec} (hsound : c.Sound) (hsized : c.itemsSized = true) (data : Bytes) :
    (c.tally data).items ≤ data.length := by
  cases hwidth : c.countWidth? with
  | none =>
    rw [items_tally_of_none hwidth]
    exact Nat.zero_le _
  | some width =>
    exact tally_cases (P := fun _ tally => (tally data).items ≤ data.length) hsound hsized
      (fun _ _ => Read.items_tallyBytes_le) (fun _ _ _ _ _ h => Read.items_tally_le h) hwidth

/-- **A count above the number of bytes behind it ends in a fault.** -/
theorem tally_of_lt {c : Codec} (hsound : c.Sound) (hsized : c.itemsSized = true)
    {width : PrefixWidth} (hwidth : c.countWidth? = some width) {data rest : Bytes} {n : Nat}
    (hcount : (Read.count width).run data = (.ok n, rest)) (hlt : rest.length < n) :
    ∃ f, (c.tally data).outcome = .error f :=
  tally_cases (P := fun width tally => (Read.count width).run data = (.ok n, rest) →
      ∃ f, (tally data).outcome = .error f) hsound hsized
    (fun _ _ h => Read.tallyBytes_of_lt h hlt) (fun _ _ _ _ _ h h' => Read.tally_of_lt h h' hlt)
    hwidth hcount

end ContractKit.Codec
