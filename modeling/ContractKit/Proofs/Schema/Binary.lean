import ContractKit.Proofs.Wire.Extent
import ContractKit.Schema.Binary

/-!
# `Proofs/Schema/Binary.lean`: the binary form of schemas is a bijection

The schemas that have a binary form are the well-formed ones: nothing is missing in them, and their
counts, lengths and names fit into four bytes. Every one of them has a form, no two have the same, and
a byte string that is not the form of one of them is refused with a wire error (`binary_form`).

Reading and writing are compared one level at a time. A reader `AcceptsBelow n` if on strings of fewer
than `n` bytes it takes exactly what is written for fit values; if the reader of what is below a node
accepts below `n`, that of the node accepts below `n + 1`, since the node has a byte of its own. So the
induction is on the budget, and it shows on the way that the budget is never used up.
-/

set_option autoImplicit false

namespace ContractKit

open Bytes (Pieces)

/-! ## Accepting -/

/-- Pieces of a string are no longer than the string. -/
theorem Bytes.Pieces.congr {α : Type} {R S : α → Bytes → Prop} {n : Nat} :
    ∀ {as : List α} {data : Bytes}, data.length < n →
      (∀ a ∈ as, ∀ d : Bytes, d.length < n → (R a d ↔ S a d)) → (Pieces R as data ↔ Pieces S as data)
  | [], _, _, _ => Iff.rfl
  | a :: as, data, hdata, h => by
    rw [Pieces, Pieces]
    refine exists_congr fun front => exists_congr fun rest => and_congr_right fun hsplit => ?_
    rw [hsplit, List.length_append] at hdata
    exact and_congr (h a List.mem_cons_self front (by omega))
      (Pieces.congr (by omega) fun b hb => h b (List.mem_cons_of_mem _ hb))

/-- On strings of fewer than `n` bytes, the program takes exactly what is written for fit values. -/
def Read.AcceptsBelow {α : Type} (n : Nat) (p : Read α) (fit : α → Prop) (write : α → Emit) : Prop :=
  ∀ (a : α) (data : Bytes), data.length < n → (p.Takes data a ↔ fit a ∧ (write a).toBytes = .ok data)

theorem Emit.toBytes_byte_append {b : UInt8} {e : Emit} {data : Bytes} :
    (Emit.byte b ++ e).toBytes = .ok data ↔ ∃ rest, data = b :: rest ∧ e.toBytes = .ok rest := by
  rw [toBytes_append_eq_ok]
  simp only [toBytes_byte]
  constructor
  · rintro ⟨_, rest, rfl, rfl, h⟩
    exact ⟨rest, rfl, h⟩
  · rintro ⟨rest, rfl, h⟩
    exact ⟨[b], rest, rfl, rfl, h⟩

/-! ## Tags -/

theorem TypeTag.ofByte?_byte (tag : TypeTag) : ofByte? tag.byte = some tag := by
  cases tag <;> rfl

/-- No two bytes name one tag. -/
theorem TypeTag.byte_of_ofByte? {b : UInt8} {tag : TypeTag} (h : ofByte? b = some tag) :
    tag.byte = b := by
  have hall : ∀ i : Fin words.length, words[i].1.byte = UInt8.ofNat i := by decide
  obtain ⟨entry, hentry, rfl⟩ := Option.map_eq_some_iff.mp h
  obtain ⟨hlt, rfl⟩ := List.getElem?_eq_some_iff.mp hentry
  exact (hall ⟨b.toNat, hlt⟩).trans UInt8.ofNat_toNat

theorem PrefixWidth.ofCode?_code (w : PrefixWidth) : ofCode? w.code = some w := by
  cases w <;> rfl

/-- No two bytes name one width. -/
theorem PrefixWidth.code_of_ofCode? {b : UInt8} {w : PrefixWidth} (h : ofCode? b = some w) :
    w.code = b := by
  have hall : ∀ i : Fin words.length, words[i].1.code = UInt8.ofNat i := by decide
  obtain ⟨entry, hentry, rfl⟩ := Option.map_eq_some_iff.mp h
  obtain ⟨hlt, rfl⟩ := List.getElem?_eq_some_iff.mp hentry
  exact (hall ⟨b.toNat, hlt⟩).trans UInt8.ofNat_toNat

namespace Schema

/-! ## Well-formed schemas -/

mutual

/-- A schema with nothing missing whose counts and lengths fit into four bytes. -/
def WellFormed : Schema → Prop
  | .primitive tag => tag.isPrimitive = true
  | .pair first second => WellFormed first ∧ WellFormed second
  | .list _ item => WellFormed item
  | .set _ member => WellFormed member
  | .map _ key value => WellFormed key ∧ WellFormed value
  | .array length item => (0 ≤ length ∧ length < 2 ^ 32) ∧ WellFormed item
  | .string _ => True
  | .struct fields => FieldsWellFormed fields
  | .enum variants => variants.length < 2 ^ 32 ∧ VariantsWellFormed variants
  | .hole => False

/-- The same for a description of fields. -/
def FieldsWellFormed : Fields → Prop
  | .named fields => fields.length < 2 ^ 32 ∧ NamedWellFormed fields
  | .unnamed items => items.length < 2 ^ 32 ∧ ItemsWellFormed items
  | .none => True
  | .hole => False

/-- The same for fields with names, which have to fit too. -/
def NamedWellFormed : List (String × Schema) → Prop
  | [] => True
  | (name, s) :: rest =>
    ((Bytes.ofText name).length < 2 ^ 32 ∧ WellFormed s) ∧ NamedWellFormed rest

/-- The same for fields without names. -/
def ItemsWellFormed : List Schema → Prop
  | [] => True
  | s :: rest => WellFormed s ∧ ItemsWellFormed rest

/-- The same for variants, whose names have to fit too. -/
def VariantsWellFormed : List (String × Fields) → Prop
  | [] => True
  | (name, fields) :: rest =>
    ((Bytes.ofText name).length < 2 ^ 32 ∧ FieldsWellFormed fields) ∧ VariantsWellFormed rest

end

theorem namedWellFormed_iff : ∀ {fields : List (String × Schema)},
    NamedWellFormed fields ↔
      ∀ f ∈ fields, (Bytes.ofText f.1).length < 2 ^ 32 ∧ f.2.WellFormed
  | [] => by simp [NamedWellFormed]
  | (name, s) :: rest => by simp [NamedWellFormed, namedWellFormed_iff]

theorem itemsWellFormed_iff : ∀ {items : List Schema},
    ItemsWellFormed items ↔ ∀ s ∈ items, s.WellFormed
  | [] => by simp [ItemsWellFormed]
  | s :: rest => by simp [ItemsWellFormed, itemsWellFormed_iff]

theorem variantsWellFormed_iff : ∀ {variants : List (String × Fields)},
    VariantsWellFormed variants ↔
      ∀ v ∈ variants, (Bytes.ofText v.1).length < 2 ^ 32 ∧ FieldsWellFormed v.2
  | [] => by simp [VariantsWellFormed]
  | (name, fields) :: rest => by simp [VariantsWellFormed, variantsWellFormed_iff]

theorem emitNamed_eq : ∀ fields : List (String × Schema),
    emitNamed fields = Emit.each (fun f => Emit.prefixedText .four f.1 ++ f.2.emit) fields
  | [] => rfl
  | (name, s) :: rest => by
    rw [emitNamed, emitNamed_eq rest]
    rfl

theorem emitItems_eq : ∀ items : List Schema, emitItems items = Emit.each emit items
  | [] => rfl
  | s :: rest => by
    rw [emitItems, emitItems_eq rest]
    rfl

theorem emitVariants_eq : ∀ variants : List (String × Fields),
    emitVariants variants = Emit.each (fun v => Emit.prefixedText .four v.1 ++ emitFields v.2) variants
  | [] => rfl
  | (name, fields) :: rest => by
    rw [emitVariants, emitVariants_eq rest]
    rfl

/-! ## One level -/

section Level

open Read

variable {α : Type} {n : Nat} {fit : α → Prop} {write : α → Emit} {p : Read α} {data : Bytes}

/-- Names are read as they are written, and those that are too long have no form. -/
theorem accepts_named (h : p.AcceptsBelow n fit write) :
    (readNamed p).AcceptsBelow n (fun x => (Bytes.ofText x.1).length < 2 ^ 32 ∧ fit x.2)
      (fun x => Emit.prefixedText .four x.1 ++ write x.2) := by
  rintro ⟨name, a⟩ data hdata
  rw [readNamed, takes_bind]
  simp only [takes_map, takes_prefixedText, Prod.mk.injEq]
  constructor
  · rintro ⟨_, front, rest, rfl, hname, _, ha, rfl, rfl⟩
    rw [List.length_append] at hdata
    obtain ⟨hfit, hwrite⟩ := (h a rest (by omega)).mp ha
    have hlen := (Emit.toBytes_prefixedBytes.mp hname).1
    exact ⟨⟨Nat.lt_of_le_of_lt hlen (by decide), hfit⟩,
      Emit.toBytes_append_eq_ok.mpr ⟨front, rest, rfl, hname, hwrite⟩⟩
  · rintro ⟨⟨-, hfit⟩, hwrite⟩
    obtain ⟨front, rest, rfl, hname, hwrite⟩ := Emit.toBytes_append_eq_ok.mp hwrite
    rw [List.length_append] at hdata
    exact ⟨name, front, rest, rfl, hname, a, (h a rest (by omega)).mpr ⟨hfit, hwrite⟩, rfl, rfl⟩

/-- Items are read as they are written, and more than can be counted have no form. -/
theorem accepts_items (h : p.AcceptsBelow n fit write) :
    (prefixedItems .four p).AcceptsBelow n (fun as => as.length < 2 ^ 32 ∧ ∀ a ∈ as, fit a)
      (fun as => Emit.count .four as.length ++ Emit.each write as) := by
  intro as data hdata
  rw [takes_prefixedItems, Emit.toBytes_append_eq_ok]
  simp only [Emit.toBytes_each]
  constructor
  · rintro ⟨front, rest, rfl, hcount, hpieces⟩
    rw [List.length_append] at hdata
    -- every piece is shorter than `n` bytes too, and there the two agree
    have hpieces := (Pieces.congr (n := n) (by omega) fun a _ d hd => h a d hd).mp hpieces
    exact ⟨⟨Nat.lt_of_le_of_lt (Emit.toBytes_count.mp hcount).1 (by decide),
        hpieces.forall fun a d ha => ha.1⟩,
      front, rest, rfl, hcount, hpieces.mono fun a _ d hd => hd.2⟩
  · rintro ⟨⟨-, hfit⟩, front, rest, rfl, hcount, hpieces⟩
    rw [List.length_append] at hdata
    refine ⟨front, rest, rfl, hcount, ?_⟩
    exact (Pieces.congr (n := n) (by omega) fun a _ d hd => h a d hd).mpr
      (hpieces.mono fun a ha d hd => ⟨hfit a ha, hd⟩)

/-- Fields are read by the byte in front, which decides in which of the forms they are. -/
theorem takes_readFields {item : Read Schema} {fields : Fields} :
    (readFields item).Takes data fields ↔ ∃ b rest, data = b :: rest ∧
      (b = namedByte ∧ (∃ fs, (prefixedItems .four (readNamed item)).Takes rest fs ∧
          fields = .named fs) ∨
        b = unnamedByte ∧ (∃ items, (prefixedItems .four item).Takes rest items ∧
          fields = .unnamed items) ∨
        b = noneByte ∧ rest = [] ∧ fields = .none) := by
  rw [readFields, Takes]
  refine exists_congr fun b => exists_congr fun rest => and_congr_right fun _ => ?_
  by_cases hb : b = namedByte
  · simp [hb, takes_map, namedByte, unnamedByte, noneByte]
  · by_cases hb' : b = unnamedByte
    · simp [hb', takes_map, namedByte, unnamedByte, noneByte]
    · by_cases hb'' : b = noneByte
      · simp [hb'', Takes, namedByte, unnamedByte, noneByte]
      · simp [hb, hb', hb'', Takes]

/-- Fields are read as they are written, if schemas are. -/
theorem accepts_fields {item : Read Schema} (h : item.AcceptsBelow n WellFormed emit) :
    (readFields item).AcceptsBelow n FieldsWellFormed emitFields := by
  intro fields data hdata
  have hnamed := accepts_items (accepts_named h)
  have hitems := accepts_items h
  rw [takes_readFields]
  -- the form of the fields leaves one of the three alternatives of reading
  cases fields with
  | named fs =>
    rw [FieldsWellFormed, namedWellFormed_iff, emitFields, emitNamed_eq, Emit.toBytes_byte_append]
    constructor
    · rintro ⟨b, rest, rfl, ⟨rfl, _, hfs, heq⟩ | ⟨-, _, -, heq⟩ | ⟨-, -, heq⟩⟩
      · cases heq
        obtain ⟨hfit, hwrite⟩ := (hnamed fs rest (Nat.lt_of_succ_lt hdata)).mp hfs
        exact ⟨hfit, rest, rfl, hwrite⟩
      · cases heq
      · cases heq
    · rintro ⟨hfit, rest, rfl, hwrite⟩
      exact ⟨_, rest, rfl,
        Or.inl ⟨rfl, fs, (hnamed fs rest (Nat.lt_of_succ_lt hdata)).mpr ⟨hfit, hwrite⟩, rfl⟩⟩
  | unnamed items =>
    rw [FieldsWellFormed, itemsWellFormed_iff, emitFields, emitItems_eq, Emit.toBytes_byte_append]
    constructor
    · rintro ⟨b, rest, rfl, ⟨-, _, -, heq⟩ | ⟨rfl, _, his, heq⟩ | ⟨-, -, heq⟩⟩
      · cases heq
      · cases heq
        obtain ⟨hfit, hwrite⟩ := (hitems items rest (Nat.lt_of_succ_lt hdata)).mp his
        exact ⟨hfit, rest, rfl, hwrite⟩
      · cases heq
    · rintro ⟨hfit, rest, rfl, hwrite⟩
      exact ⟨_, rest, rfl, Or.inr (Or.inl
        ⟨rfl, items, (hitems items rest (Nat.lt_of_succ_lt hdata)).mpr ⟨hfit, hwrite⟩, rfl⟩)⟩
  | none =>
    rw [FieldsWellFormed, emitFields, Emit.toBytes_byte]
    constructor
    · rintro ⟨b, rest, rfl, ⟨-, _, -, heq⟩ | ⟨-, _, -, heq⟩ | ⟨rfl, rfl, -⟩⟩
      · cases heq
      · cases heq
      · exact ⟨trivial, rfl⟩
    · rintro ⟨-, rfl⟩
      exact ⟨_, [], rfl, Or.inr (Or.inr ⟨rfl, rfl, rfl⟩)⟩
  | hole =>
    constructor
    · rintro ⟨b, rest, rfl, ⟨-, _, -, heq⟩ | ⟨-, _, -, heq⟩ | ⟨-, -, heq⟩⟩ <;> cases heq
    · rintro ⟨hfit, -⟩
      exact hfit.elim

theorem takes_readSize {w : PrefixWidth} : readSize.Takes data w ↔ data = [w.code] := by
  rw [readSize, Takes]
  constructor
  · rintro ⟨b, rest, rfl, h⟩
    cases hcode : PrefixWidth.ofCode? b with
    | none =>
      rw [hcode] at h
      cases h
    | some found =>
      rw [hcode] at h
      obtain ⟨rfl, rfl⟩ := h
      rw [PrefixWidth.code_of_ofCode? hcode]
  · rintro rfl
    exact ⟨w.code, [], rfl, by rw [PrefixWidth.ofCode?_code]; exact ⟨rfl, rfl⟩⟩

end Level

/-! ## Nodes -/

/-- The tag that a node starts with. -/
def tag : Schema → TypeTag
  | .primitive tag => tag
  | .pair .. => .pair
  | .list .. => .list
  | .set .. => .set
  | .map .. => .map
  | .array .. => .array
  | .string .. => .string
  | .struct .. => .struct
  | .enum .. => .enum
  | .hole => .unit

section Node

open Read

variable {n : Nat} {item : Read Schema} {s : Schema} {data : Bytes}

/-- What is read behind a tag is a node with that tag, which is all of the node only where nothing has
to follow. -/
theorem tag_of_takes_readBody {t : TypeTag} (h : (readBody item t).Takes data s) :
    s.tag = t ∧ ∀ u, s = .primitive u → u.isPrimitive = true := by
  cases t with
  | pair =>
    obtain ⟨_, _, _, -, -, h⟩ := takes_bind.mp h
    obtain ⟨_, -, rfl⟩ := takes_map.mp h
    exact ⟨rfl, nofun⟩
  | list | set | array =>
    obtain ⟨_, _, _, -, -, h⟩ := takes_bind.mp h
    obtain ⟨_, -, rfl⟩ := takes_map.mp h
    exact ⟨rfl, nofun⟩
  | map =>
    obtain ⟨_, _, _, -, -, h⟩ := takes_bind.mp h
    obtain ⟨_, _, _, -, -, h⟩ := takes_bind.mp h
    obtain ⟨_, -, rfl⟩ := takes_map.mp h
    exact ⟨rfl, nofun⟩
  | string | struct | enum =>
    obtain ⟨_, -, rfl⟩ := takes_map.mp h
    exact ⟨rfl, nofun⟩
  | _ =>
    obtain ⟨-, rfl⟩ := h
    refine ⟨rfl, fun u hu => ?_⟩
    cases hu
    rfl

section Behind

variable {x : Schema} {size : PrefixWidth} {length : Int} {first second : Schema}

theorem toBytes_behind {b : UInt8} {e : Emit} :
    (Emit.byte b ++ e).toBytes = .ok (b :: data) ↔ e.toBytes = .ok data := by
  rw [Emit.toBytes_byte_append]
  simp

theorem holds_lengthFormat {k : Int} : lengthFormat.Holds k ↔ 0 ≤ k ∧ k < 2 ^ 32 := by
  simp [LittleEndian.Format.Holds, LittleEndian.Format.lower, LittleEndian.Format.upper,
    lengthFormat]

/-- One thing below a node, whatever node is made of it. -/
theorem takes_one {α : Type} {fit : α → Prop} {write : α → Emit} {p : Read α} {f : α → Schema} {a : α}
    (hf : ∀ b, f a = f b → a = b) (h : p.AcceptsBelow n fit write) (hdata : data.length < n) :
    (p.bind fun b => .done (f b)).Takes data (f a) ↔ fit a ∧ (write a).toBytes = .ok data := by
  rw [takes_map, ← h a data hdata]
  constructor
  · rintro ⟨b, hb, heq⟩
    rw [hf b heq]
    exact hb
  · intro ha
    exact ⟨a, ha, rfl⟩

/-- Two schemas below a node, whatever node is made of them. -/
theorem takes_two {f : Schema → Schema → Schema}
    (hf : ∀ a b, f first second = f a b → first = a ∧ second = b)
    (h : item.AcceptsBelow n WellFormed emit) (hdata : data.length < n) :
    (item.bind fun a => item.bind fun b => .done (f a b)).Takes data (f first second) ↔
      (first.WellFormed ∧ second.WellFormed) ∧ (first.emit ++ second.emit).toBytes = .ok data := by
  rw [takes_bind, Emit.toBytes_append_eq_ok]
  constructor
  · rintro ⟨a, front, rest, rfl, ha, hrest⟩
    obtain ⟨b, hb, heq⟩ := takes_map.mp hrest
    obtain ⟨rfl, rfl⟩ := hf a b heq
    rw [List.length_append] at hdata
    obtain ⟨hfirst, hfront⟩ := (h first front (by omega)).mp ha
    obtain ⟨hsecond, hrest⟩ := (h second rest (by omega)).mp hb
    exact ⟨⟨hfirst, hsecond⟩, front, rest, rfl, hfront, hrest⟩
  · rintro ⟨⟨hfirst, hsecond⟩, front, rest, rfl, hfront, hrest⟩
    rw [List.length_append] at hdata
    exact ⟨first, front, rest, rfl, (h first front (by omega)).mpr ⟨hfirst, hfront⟩,
      takes_map.mpr ⟨second, (h second rest (by omega)).mpr ⟨hsecond, hrest⟩, rfl⟩⟩

/-- A width and what is behind it. -/
theorem takes_sized {p : PrefixWidth → Read Schema} {e : Emit} {fit : Prop}
    (hp : ∀ w d, (p w).Takes d x → w = size) (hdata : data.length < n)
    (h : ∀ d : Bytes, d.length < n → ((p size).Takes d x ↔ fit ∧ e.toBytes = .ok d)) :
    (readSize.bind p).Takes data x ↔ fit ∧ (Emit.byte size.code ++ e).toBytes = .ok data := by
  rw [takes_bind, Emit.toBytes_byte_append]
  constructor
  · rintro ⟨w, front, rest, rfl, hw, hrest⟩
    obtain rfl := hp w rest hrest
    rw [takes_readSize.mp hw] at hdata ⊢
    obtain ⟨hfit, he⟩ := (h rest (Nat.lt_of_succ_lt hdata)).mp hrest
    exact ⟨hfit, rest, rfl, he⟩
  · rintro ⟨hfit, rest, rfl, he⟩
    exact ⟨size, [size.code], rest, rfl, takes_readSize.mpr rfl,
      (h rest (Nat.lt_of_succ_lt hdata)).mpr ⟨hfit, he⟩⟩

/-- A length and what is behind it. -/
theorem takes_array (h : item.AcceptsBelow n WellFormed emit) (hdata : data.length < n) :
    (readBody item .array).Takes data (.array length x) ↔
      ((0 ≤ length ∧ length < 2 ^ 32) ∧ x.WellFormed) ∧
        (Emit.int lengthFormat length ++ x.emit).toBytes = .ok data := by
  rw [readBody, takes_bind, Emit.toBytes_append_eq_ok]
  constructor
  · rintro ⟨k, front, rest, rfl, hk, hrest⟩
    obtain ⟨s, hs, heq⟩ := takes_map.mp hrest
    cases heq
    rw [List.length_append] at hdata
    obtain ⟨hx, hwrite⟩ := (h x rest (by omega)).mp hs
    have hint := takes_int.mp hk
    -- only numbers that the format holds are encoded
    have hholds : lengthFormat.Holds length := by
      have hencode := Emit.toBytes_int.mp hint
      unfold LittleEndian.Format.encode? at hencode
      split at hencode
      · assumption
      · cases hencode
    exact ⟨⟨holds_lengthFormat.mp hholds, hx⟩, front, rest, rfl, hint, hwrite⟩
  · rintro ⟨⟨-, hx⟩, front, rest, rfl, hint, hwrite⟩
    rw [List.length_append] at hdata
    exact ⟨length, front, rest, rfl, takes_int.mpr hint,
      takes_map.mpr ⟨x, (h x rest (by omega)).mpr ⟨hx, hwrite⟩, rfl⟩⟩

/-- A node that is its tag alone. -/
theorem takes_primitive {t : TypeTag} :
    (readBody item t).Takes data (.primitive t) ↔ t.isPrimitive = true ∧ data = [] := by
  have hbody : t.isPrimitive = true → readBody item t = .done (.primitive t) := by
    intro ht
    -- a primitive has no case of its own among the bodies
    cases t <;> first | rfl | cases ht
  constructor
  · intro h
    have ht := (tag_of_takes_readBody h).2 t rfl
    rw [hbody ht] at h
    exact ⟨ht, h.1⟩
  · rintro ⟨ht, rfl⟩
    rw [hbody ht]
    exact ⟨rfl, rfl⟩

end Behind

/-- **What is read behind the tag of a node is what is written behind it.** -/
theorem takes_readBody (h : item.AcceptsBelow n WellFormed emit) (hdata : data.length < n) :
    (readBody item s.tag).Takes data s ↔
      s.WellFormed ∧ s.emit.toBytes = .ok (s.tag.byte :: data) := by
  -- the tag tells the kind of node, so what is read behind it is a node of the same kind
  cases s with
  | primitive t =>
    rw [WellFormed, emit, Emit.toBytes_byte, tag, takes_primitive, List.cons.injEq]
    simp
  | pair first second =>
    rw [WellFormed, emit, tag, toBytes_behind]
    exact takes_two (fun _ _ => Schema.pair.inj) h hdata
  | list size x =>
    rw [WellFormed, emit, tag, toBytes_behind]
    refine takes_sized (fun w d hd => ?_) hdata fun d hd =>
      takes_one (fun _ heq => (Schema.list.inj heq).2) h hd
    obtain ⟨_, -, heq⟩ := takes_map.mp hd
    exact (Schema.list.inj heq).1.symm
  | set size x =>
    rw [WellFormed, emit, tag, toBytes_behind]
    refine takes_sized (fun w d hd => ?_) hdata fun d hd =>
      takes_one (fun _ heq => (Schema.set.inj heq).2) h hd
    obtain ⟨_, -, heq⟩ := takes_map.mp hd
    exact (Schema.set.inj heq).1.symm
  | map size key value =>
    rw [WellFormed, emit, tag, toBytes_behind]
    refine takes_sized (fun w d hd => ?_) hdata fun d hd =>
      takes_two (fun _ _ heq => (Schema.map.inj heq).2) h hd
    obtain ⟨_, _, _, -, -, hd⟩ := takes_bind.mp hd
    obtain ⟨_, -, heq⟩ := takes_map.mp hd
    exact (Schema.map.inj heq).1.symm
  | array length x =>
    rw [WellFormed, emit, tag, toBytes_behind]
    exact takes_array h hdata
  | string size =>
    rw [WellFormed, emit, tag, toBytes_behind, Emit.toBytes_byte, readBody, takes_map]
    constructor
    · rintro ⟨w, hw, heq⟩
      obtain rfl := Schema.string.inj heq
      exact ⟨trivial, takes_readSize.mp hw⟩
    · rintro ⟨-, rfl⟩
      exact ⟨size, takes_readSize.mpr rfl, rfl⟩
  | struct fields =>
    rw [WellFormed, emit, tag, toBytes_behind]
    exact takes_one (fun _ => Schema.struct.inj) (accepts_fields h) hdata
  | enum variants =>
    rw [WellFormed, emit, tag, toBytes_behind, variantsWellFormed_iff, emitVariants_eq]
    exact takes_one (fun _ => Schema.enum.inj) (accepts_items (accepts_named (accepts_fields h))) hdata
  | hole =>
    constructor
    · rintro ⟨-, heq⟩
      cases heq
    · rintro ⟨hfit, -⟩
      exact hfit.elim

/-- Every schema that is written starts with its tag. -/
theorem emit_tag (h : s.emit.toBytes = .ok data) : ∃ rest, data = s.tag.byte :: rest := by
  cases s with
  | primitive t =>
    rw [emit, Emit.toBytes_byte] at h
    exact ⟨[], h⟩
  | hole => exact absurd h Emit.toBytes_fail_ne
  | _ =>
    obtain ⟨rest, hrest, -⟩ := Emit.toBytes_byte_append.mp h
    exact ⟨rest, hrest⟩

/-! ## All levels -/

/-- **A budget above the number of bytes accepts exactly the well-formed schemas.** By induction over
the budget: a node takes one byte of its own, so its parts have a smaller budget and fewer bytes. -/
theorem accepts_read : ∀ budget : Nat, (read budget).AcceptsBelow budget WellFormed emit
  | 0 => fun _ _ hdata => nomatch hdata
  | budget + 1 => by
    intro s data hdata
    have h := accepts_read budget
    rw [read, Takes]
    constructor
    · rintro ⟨b, rest, rfl, hread⟩
      cases htag : TypeTag.ofByte? b with
      | none =>
        rw [htag] at hread
        cases hread
      | some t =>
        rw [htag] at hread
        obtain ⟨hs, -⟩ := tag_of_takes_readBody hread
        -- the byte is the one that would be written, since no other names this tag
        rw [← TypeTag.byte_of_ofByte? htag, ← hs]
        rw [← hs] at hread
        exact (takes_readBody h (Nat.lt_of_succ_lt_succ hdata)).mp hread
    · rintro ⟨hfit, hwrite⟩
      obtain ⟨rest, rfl⟩ := emit_tag hwrite
      refine ⟨s.tag.byte, rest, rfl, ?_⟩
      rw [TypeTag.ofByte?_byte]
      exact (takes_readBody h (Nat.lt_of_succ_lt_succ hdata)).mpr ⟨hfit, hwrite⟩

end Node

/-! ## The budget -/

section Budget

open Read

theorem agrees_named {α : Type} {n : Nat} {p q : Read α} (h : AgreesBelow n p q) :
    AgreesBelow n (readNamed p) (readNamed q) :=
  (AgreesBelow.refl _).bind fun _ => h.bind fun _ => .refl _

variable {n : Nat} {p q : Read Schema}

theorem agrees_fields (h : AgreesBelow n p q) : AgreesBelow n (readFields p) (readFields q) := by
  refine (AgreesBelow.byte fun b => ?_).mono (Nat.le_succ n)
  by_cases hb : b = namedByte
  · rw [if_pos hb, if_pos hb]
    exact ((agrees_named h).prefixedItems _).bind fun _ => .refl _
  · rw [if_neg hb, if_neg hb]
    by_cases hb' : b = unnamedByte
    · rw [if_pos hb', if_pos hb']
      exact (h.prefixedItems _).bind fun _ => .refl _
    · rw [if_neg hb', if_neg hb']
      exact .refl _

theorem agrees_body (h : AgreesBelow n p q) (t : TypeTag) :
    AgreesBelow n (readBody p t) (readBody q t) := by
  cases t with
  | pair => exact h.bind fun _ => h.bind fun _ => .refl _
  | list | set | array => exact (AgreesBelow.refl _).bind fun _ => h.bind fun _ => .refl _
  | map => exact (AgreesBelow.refl _).bind fun _ => h.bind fun _ => h.bind fun _ => .refl _
  | struct => exact (agrees_fields h).bind fun _ => .refl _
  | enum => exact ((agrees_named (agrees_fields h)).prefixedItems _).bind fun _ => .refl _
  | _ => exact .refl _

/-- **Two budgets above the number of bytes cannot be told apart**: no run goes deeper than the bytes
that it has. -/
theorem agrees_read : ∀ {n budget budget' : Nat}, n ≤ budget → n ≤ budget' →
    AgreesBelow n (read budget) (read budget')
  | 0, _, _, _, _ => fun _ hdata => nomatch hdata
  | n + 1, budget + 1, budget' + 1, h, h' => by
    refine AgreesBelow.byte fun b => ?_
    cases TypeTag.ofByte? b with
    | none => exact .refl _
    | some t => exact agrees_body (agrees_read (Nat.le_of_succ_le_succ h) (Nat.le_of_succ_le_succ h')) t

end Budget

/-! ## Failing -/

section Failing

open Read

theorem fails_readSize : readSize.FailsOnWire := by
  refine .byte fun b => ?_
  cases PrefixWidth.ofCode? b with
  | none => exact ⟨_, rfl⟩
  | some w => trivial

theorem fails_named {α : Type} {item : Read α} (h : item.FailsOnWire) :
    (readNamed item).FailsOnWire :=
  (Read.Confined.prefixedText ⟨_, rfl⟩ _).bind fun _ => h.bind fun _ => trivial

theorem fails_fields {item : Read Schema} (h : item.FailsOnWire) :
    (readFields item).FailsOnWire := by
  refine .byte fun b => ?_
  by_cases hb : b = namedByte
  · rw [if_pos hb]
    exact ((fails_named h).prefixedItems _).bind fun _ => trivial
  · rw [if_neg hb]
    by_cases hb' : b = unnamedByte
    · rw [if_pos hb']
      exact (h.prefixedItems _).bind fun _ => trivial
    · rw [if_neg hb']
      by_cases hb'' : b = noneByte
      · rw [if_pos hb'']
        trivial
      · rw [if_neg hb'']
        exact ⟨_, rfl⟩

theorem fails_body {item : Read Schema} (h : item.FailsOnWire) (t : TypeTag) :
    (readBody item t).FailsOnWire := by
  cases t with
  | pair => exact h.bind fun _ => h.bind fun _ => trivial
  | list | set => exact fails_readSize.bind fun _ => h.bind fun _ => trivial
  | map => exact fails_readSize.bind fun _ => h.bind fun _ => h.bind fun _ => trivial
  | array => exact (Read.Confined.int _).bind fun _ => h.bind fun _ => trivial
  | string => exact fails_readSize.bind fun _ => trivial
  | struct => exact (fails_fields h).bind fun _ => trivial
  | enum => exact ((fails_named (fails_fields h)).prefixedItems _).bind fun _ => trivial
  | _ => trivial

/-- Whatever is wrong with the bytes of a schema is a wire error. -/
theorem fails_read : ∀ budget : Nat, (read budget).FailsOnWire
  | 0 => ⟨_, rfl⟩
  | budget + 1 => by
    refine .byte fun b => ?_
    cases TypeTag.ofByte? b with
    | none => exact ⟨_, rfl⟩
    | some t => exact fails_body (fails_read budget) t

end Failing

/-! ## Writing -/

section Writing

theorem exists_append {a b : Emit} (ha : ∃ x, a.toBytes = .ok x) (hb : ∃ y, b.toBytes = .ok y) :
    ∃ data, (a ++ b).toBytes = .ok data := by
  obtain ⟨x, hx⟩ := ha
  obtain ⟨y, hy⟩ := hb
  exact ⟨x ++ y, Emit.toBytes_append_eq_ok.mpr ⟨x, y, rfl, hx, hy⟩⟩

theorem exists_byte_append {b : UInt8} {e : Emit} (h : ∃ x, e.toBytes = .ok x) :
    ∃ data, (Emit.byte b ++ e).toBytes = .ok data :=
  exists_append ⟨[b], Emit.toBytes_byte.mpr rfl⟩ h

theorem exists_count {k : Nat} (h : k < 2 ^ 32) : ∃ data, (Emit.count .four k).toBytes = .ok data :=
  ⟨_, Emit.toBytes_count.mpr ⟨Nat.le_of_lt_succ h, rfl⟩⟩

theorem exists_name {name : String} (h : (Bytes.ofText name).length < 2 ^ 32) :
    ∃ data, (Emit.prefixedText .four name).toBytes = .ok data :=
  ⟨_, Emit.toBytes_prefixedBytes.mpr ⟨Nat.le_of_lt_succ h, rfl⟩⟩

theorem exists_length {k : Int} (h : 0 ≤ k ∧ k < 2 ^ 32) :
    ∃ data, (Emit.int lengthFormat k).toBytes = .ok data :=
  ⟨_, Emit.toBytes_int.mpr (if_pos (holds_lengthFormat.mpr h))⟩

mutual

/-- **Every well-formed schema has a binary form.** -/
theorem exists_emit : ∀ {s : Schema}, s.WellFormed → ∃ data, s.emit.toBytes = .ok data
  | .primitive _, _ => ⟨_, Emit.toBytes_byte.mpr rfl⟩
  | .pair _ _, h => exists_byte_append (exists_append (exists_emit h.1) (exists_emit h.2))
  | .list _ s, h => exists_byte_append (exists_byte_append (exists_emit (s := s) h))
  | .set _ s, h => exists_byte_append (exists_byte_append (exists_emit (s := s) h))
  | .map _ _ _, h =>
    exists_byte_append (exists_byte_append (exists_append (exists_emit h.1) (exists_emit h.2)))
  | .array _ _, h => exists_byte_append (exists_append (exists_length h.1) (exists_emit h.2))
  | .string _, _ => exists_byte_append ⟨_, Emit.toBytes_byte.mpr rfl⟩
  | .struct _, h => exists_byte_append (exists_emitFields h)
  | .enum _, h => exists_byte_append (exists_append (exists_count h.1) (exists_emitVariants h.2))

theorem exists_emitFields : ∀ {fields : Fields}, FieldsWellFormed fields →
    ∃ data, (emitFields fields).toBytes = .ok data
  | .named _, h => exists_byte_append (exists_append (exists_count h.1) (exists_emitNamed h.2))
  | .unnamed _, h => exists_byte_append (exists_append (exists_count h.1) (exists_emitItems h.2))
  | .none, _ => ⟨_, Emit.toBytes_byte.mpr rfl⟩

theorem exists_emitNamed : ∀ {fields : List (String × Schema)}, NamedWellFormed fields →
    ∃ data, (emitNamed fields).toBytes = .ok data
  | [], _ => ⟨[], rfl⟩
  | (_, _) :: _, h => exists_append (exists_append (exists_name h.1.1) (exists_emit h.1.2))
      (exists_emitNamed h.2)

theorem exists_emitItems : ∀ {items : List Schema}, ItemsWellFormed items →
    ∃ data, (emitItems items).toBytes = .ok data
  | [], _ => ⟨[], rfl⟩
  | _ :: _, h => exists_append (exists_emit h.1) (exists_emitItems h.2)

theorem exists_emitVariants : ∀ {variants : List (String × Fields)}, VariantsWellFormed variants →
    ∃ data, (emitVariants variants).toBytes = .ok data
  | [], _ => ⟨[], rfl⟩
  | (_, _) :: _, h => exists_append (exists_append (exists_name h.1.1) (exists_emitFields h.1.2))
      (exists_emitVariants h.2)

end

end Writing

/-! ## The binary form -/

/-- **The binary form is a bijection** between the well-formed schemas and the byte strings that are
read at all. Every other byte string is refused with a wire error, and reading never depends on how
deep it is allowed to go. -/
theorem binary_form :
    (∀ s, WellFormed s → ∃ data, encode s = .ok data) ∧
      (∀ data s, decode data = .ok s ↔ WellFormed s ∧ encode s = .ok data) ∧
      (∀ data, (¬∃ s, WellFormed s ∧ encode s = .ok data) → ∃ e, decode data = .error (.wire e)) ∧
      ∀ data budget, data.length < budget → (read budget).runAll data = decode data := by
  have hdecode : ∀ data s, decode data = .ok s ↔ WellFormed s ∧ encode s = .ok data := by
    intro data s
    rw [decode, Read.runAll_eq_ok_iff]
    exact accepts_read _ s data (Nat.lt_succ_self _)
  refine ⟨fun s => exists_emit, hdecode, fun data hnone => ?_, fun data budget hbudget => ?_⟩
  · cases hread : decode data with
    | ok s => exact absurd ⟨s, (hdecode data s).mp hread⟩ hnone
    | error f =>
      obtain ⟨e, rfl⟩ := (fails_read _).runAll hread
      exact ⟨e, rfl⟩
  · rw [decode, Read.runAll, Read.runAll, agrees_read hbudget (Nat.le_refl _) data (Nat.lt_succ_self _)]

theorem binary_form_pair :
    decode [15, 1, 16, 2, 22, 0] = .ok (.pair (.primitive .bool) (.list .four (.string .one))) ∧
      ∃ e, decode [15, 1, 16, 2, 22, 4] = .error (.wire e) := by
  refine ⟨(binary_form.2.1 _ _).mpr ⟨⟨rfl, trivial⟩, rfl⟩, binary_form.2.2.1 _ ?_⟩
  rintro ⟨s, hs⟩
  cases (binary_form.2.1 _ _).mpr hs

end Schema

end ContractKit
