import ContractKit.Proofs.Wire.Programs
import ContractKit.Schema.Basic

/-!
# `Proofs/Schema/Walk.lean`: walking over a value by its schema alone

A schema is published so that a reader who knows nothing else can find where a value ends. `walk` is
that reader: it skips the fixed sizes of the primitives, reads the counts and the tags, and looks at
nothing else. It is put together from four programs (`skip`, `inOrder`, `skipCounted`, `skipTagged`),
and all that is said about walking is said about those.
-/

set_option autoImplicit false

namespace ContractKit

open LittleEndian
open Bytes (Pieces)

namespace Read

/-- Skip so many bytes. -/
def skip : Nat → Read Unit
  | 0 => done ()
  | n + 1 => bytes (n + 1) fun _ => done ()

/-- Run programs one after the other. -/
def inOrder : List (Read Unit) → Read Unit
  | [] => done ()
  | p :: ps => p.bind fun _ => inOrder ps

/-- Skip a count and so many items. -/
def skipCounted (width : PrefixWidth) (item : Read Unit) : Read Unit :=
  (prefixedItems width item).bind fun _ => done ()

/-- Skip a tag, which has one byte if that tells the cases apart and two if not, and the case at the
place that it names. -/
def skipTagged (cases : List (Read Unit)) : Read Unit :=
  (getBytes (if cases.length ≤ 256 then 1 else 2)).bind fun data =>
    match cases[ofDigits data]? with
    | some p => p
    | none => fail (.wire (.badVariantTag (ofDigits data) ""))

/-- Skip what is either absent or present. -/
def skipOptional (item : Read Unit) : Read Unit := skipTagged [inOrder [], inOrder [item]]

/-! ## What is skipped -/

theorem takes_skip {n : Nat} {data : Bytes} : (skip n).Takes data () ↔ data.length = n := by
  cases n with
  | zero => simp [skip, Takes]
  | succ n => simp [skip, Takes, and_comm]

theorem takes_inOrder_cons {p : Read Unit} {ps : List (Read Unit)} {data : Bytes} :
    (inOrder (p :: ps)).Takes data () ↔
      ∃ front rest, data = front ++ rest ∧ p.Takes front () ∧ (inOrder ps).Takes rest () := by
  rw [inOrder, takes_bind]
  exact ⟨fun ⟨_, h⟩ => h, fun h => ⟨(), h⟩⟩

theorem takes_inOrder_pair {p q : Read Unit} {front rest : Bytes} (hp : p.Takes front ())
    (hq : q.Takes rest ()) : (inOrder [p, q]).Takes (front ++ rest) () :=
  takes_inOrder_cons.mpr ⟨front, rest, rfl, hp,
    takes_inOrder_cons.mpr ⟨rest, [], by simp, hq, rfl, rfl⟩⟩

/-- Whatever the items are, it is enough that each of their pieces is skipped. -/
theorem takes_skipCounted {α : Type} {width : PrefixWidth} {item : Read Unit} {as : List α}
    {front rest : Bytes} (hcount : (Emit.count width as.length).toBytes = .ok front)
    (hpieces : Pieces (fun _ d => item.Takes d ()) as rest) :
    (skipCounted width item).Takes (front ++ rest) () := by
  refine takes_map.mpr ⟨as.map fun _ => (), takes_prefixedItems.mpr ⟨front, rest, rfl, ?_, ?_⟩, rfl⟩
  · rw [List.length_map]
    exact hcount
  · exact Pieces.map.mpr hpieces

theorem takes_skipTagged {cases : List (Read Unit)} {p : Read Unit} {front rest : Bytes} {i : Nat}
    (hfront : front.length = if cases.length ≤ 256 then 1 else 2) (htag : ofDigits front = i)
    (hi : cases[i]? = some p) (hp : p.Takes rest ()) : (skipTagged cases).Takes (front ++ rest) () := by
  refine takes_bind.mpr ⟨front, front, rest, rfl, takes_getBytes.mpr ⟨rfl, hfront⟩, ?_⟩
  rw [htag, hi]
  exact hp

/-- A byte string is skipped byte by byte. -/
theorem pieces_skip_one : ∀ {data : Bytes}, Pieces (fun _ d => (skip 1).Takes d ()) data data
  | [] => rfl
  | b :: data => ⟨[b], data, rfl, takes_skip.mpr rfl, pieces_skip_one⟩

theorem takes_skipCounted_bytes {width : PrefixWidth} {x data : Bytes}
    (h : (Emit.prefixedBytes width x).toBytes = .ok data) :
    (skipCounted width (skip 1)).Takes data () := by
  obtain ⟨hle, rfl⟩ := Emit.toBytes_prefixedBytes.mp h
  exact takes_skipCounted (Emit.toBytes_count.mpr ⟨hle, rfl⟩) pieces_skip_one

theorem takes_skipOptional_none {item : Read Unit} : (skipOptional item).Takes [0] () := by
  rw [show ([0] : Bytes) = [0] ++ [] from rfl]
  exact takes_skipTagged rfl rfl rfl ⟨rfl, rfl⟩

theorem takes_skipOptional_some {item : Read Unit} {rest : Bytes} (h : item.Takes rest ()) :
    (skipOptional item).Takes (1 :: rest) () := by
  rw [show (1 :: rest : Bytes) = [1] ++ rest from rfl]
  exact takes_skipTagged rfl rfl rfl
    (takes_inOrder_cons.mpr ⟨rest, [], by simp, h, rfl, rfl⟩)

end Read

namespace TypeTag

/-- The size of a primitive type. -/
def size? : TypeTag → Option Nat
  | unit => some 0
  | bool | u8 | i8 => some 1
  | u16 | i16 => some 2
  | u32 | i32 => some 4
  | u64 | i64 | amount | timestamp | duration => some 8
  | contractAddress | u128 | i128 => some 16
  | accountAddress => some 32
  | pair | list | set | map | array | struct | enum | string => none

end TypeTag

namespace Schema

open Read

mutual

/-- Skip a value that a schema describes. A description with something missing skips nothing. -/
def walk : Schema → Read Unit
  | .primitive tag =>
    match tag.size? with
    | some n => skip n
    | none => .fail (.wire (.badTypeTag tag.byte))
  | .pair first second => inOrder [walk first, walk second]
  | .list size item => skipCounted size (walk item)
  | .set size member => skipCounted size (walk member)
  | .map size key value => skipCounted size (inOrder [walk key, walk value])
  | .array length item =>
    if 0 ≤ length then (times (walk item) length.toNat).bind fun _ => .done ()
    else .fail (.wire .negativeCount)
  | .string size => skipCounted size (skip 1)
  | .struct fields => walkFields fields
  | .enum variants => skipTagged (walkVariants variants)
  | .hole => .fail (.typeIssue .missingSchema)

/-- Skip the fields that are described. -/
def walkFields : Fields → Read Unit
  | .named fields => inOrder (walkNamed fields)
  | .unnamed items => inOrder (walkItems items)
  | .none => inOrder []
  | .hole => .fail (.typeIssue .missingFields)

/-- What skips each of the fields with names. -/
def walkNamed : List (String × Schema) → List (Read Unit)
  | [] => []
  | (_, s) :: rest => walk s :: walkNamed rest

/-- What skips each of the items. -/
def walkItems : List Schema → List (Read Unit)
  | [] => []
  | s :: rest => walk s :: walkItems rest

/-- What skips the fields of each of the variants. -/
def walkVariants : List (String × Fields) → List (Read Unit)
  | [] => []
  | (_, fields) :: rest => walkFields fields :: walkVariants rest

end

theorem walkNamed_eq : ∀ fields : List (String × Schema), walkNamed fields = fields.map fun f => f.2.walk
  | [] => rfl
  | (_, s) :: rest => by rw [walkNamed, walkNamed_eq rest, List.map_cons]

theorem walkItems_eq : ∀ items : List Schema, walkItems items = items.map walk
  | [] => rfl
  | s :: rest => by rw [walkItems, walkItems_eq rest, List.map_cons]

theorem walkVariants_eq : ∀ variants : List (String × Fields),
    walkVariants variants = variants.map fun v => walkFields v.2
  | [] => rfl
  | (_, fields) :: rest => by rw [walkVariants, walkVariants_eq rest, List.map_cons]

end Schema

end ContractKit
