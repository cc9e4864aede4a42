import ContractKit.Attribute.Parser
import ContractKit.Value.Shown

/-!
# `Attribute/Marker.lean`: attributes on annotations

The annotation of a field can carry metadata. A marker is metadata that holds attributes, as texts and
as options given by keyword; any other metadata is kept and shown, but means nothing here. Metadata
inside an annotation is kept in its printed form alone.
-/

set_option autoImplicit false

namespace ContractKit

/-- Attributes attached to an annotation, as texts that are still to be read and as options given by
keyword. A marker is kept unread: what is wrong with it is reported for the field that it stands on. -/
structure Marker where
  texts : List String
  options : List (String × Value)

/-- A piece of metadata of an annotation. Texts are metadata of others and are passed over; the library
reads markers alone. -/
inductive Metadata
  | text (s : String)
  | marker (marker : Marker)

namespace Metadata

/-- A piece of metadata as it is printed. -/
def shown : Metadata → String
  | text s => Text.quoted s
  | marker m =>
    "FieldAttributes(items=" ++ (Value.tuple (m.texts.map Value.text)).shown ++ ", options=" ++
      (Value.tuple (m.options.map fun o => .tuple [.text o.1, o.2])).shown ++ ")"

/-- The marker that a piece of metadata is, if it is one. -/
def marker? : Metadata → Option Marker
  | marker m => some m
  | text _ => none

end Metadata

/-- An annotation with its metadata. Codecs see the type alone; attributes are collected from the metadata
around it, and metadata further inside is only shown. -/
structure TypeHint where
  /-- The type without the metadata around it. -/
  type : Ty
  metadata : List Metadata := []

namespace TypeHint

/-- The annotation as a type, its metadata printed. -/
def toTy (a : TypeHint) : Ty :=
  if a.metadata.isEmpty then a.type else .annotated a.type (a.metadata.map Metadata.shown)

/-- The attributes of all markers together: their texts first, then their options. -/
def attributes (a : TypeHint) (chars : Text.CharNames) (span : Span) :
    Except Fault (List Attribute) :=
  let markers := a.metadata.filterMap Metadata.marker?
  Attribute.collect chars span (markers.flatMap Marker.texts) (markers.flatMap Marker.options)

end TypeHint

end ContractKit
