import ContractKit.Codec.Basic
import ContractKit.Contract.Spec
import ContractKit.Source.Interaction

/-!
# `Source/Syntax.lean`: the language of contract descriptions

A contract is a list of declarations: classes with fields, sums, enumerations, constants, other names
for what is declared, and functions. Types, values and the bodies of functions are written in small
languages of their own. Names are not looked up here; what a declaration means is said in
`Module/Declare.lean`, and how a body runs in `Module/Body.lean`.
-/

set_option autoImplicit false

namespace ContractKit.Source

mutual

/-- A type as it is written. Writing one down can fail by itself, before anything asks for a codec: a
name can be unknown, or stand for what is no type. -/
inductive TypeExpr
  | type (t : Ty)
  /-- Something that is declared, by the path of its name. -/
  | named (path : String)
  /-- A name that is looked up later. -/
  | forward (name : String)
  | list (item : TypeExpr)
  | set (member : TypeExpr)
  | frozenset (member : TypeExpr)
  | varTuple (item : TypeExpr)
  | tuple (args : List TypeExpr)
  | dict (key value : TypeExpr)
  | optional (item : TypeExpr)
  | union (members : List TypeExpr)
  | bar (left right : TypeExpr)
  | annotated (base : TypeExpr) (metadata : List MetadataExpr)
  | ok (value : TypeExpr)
  | err (error : TypeExpr)
  | result (value error : TypeExpr)
  | stateRef (state : TypeExpr)

/-- A piece of metadata as it is written. -/
inductive MetadataExpr
  | text (s : String)
  | marker (items : List Expr) (options : List (String × Expr))

/-- A value as it is written. Evaluation looks names up and builds instances, which runs what the
classes reject. -/
inductive Expr
  | none
  | bool (b : Bool)
  | int (n : Int)
  | text (s : String)
  | bytes (data : Bytes)
  | list (items : List Expr)
  | tuple (items : List Expr)
  | set (members : List Expr)
  | frozenset (members : List Expr)
  | dict (entries : List (Expr × Expr))
  /-- A list that repeats one item. -/
  | repeated (item : Expr) (count : Nat)
  /-- The set of the numbers from one up to another. -/
  | intSet (start stop : Int)
  /-- A map from the numbers from one up to another to one value. -/
  | intDict (start stop : Int) (value : Expr)
  /-- An instance of a class. A raw one is built from its items alone, however many there are. -/
  | record (path : String) (raw : Bool) (fields : List (String × Expr))
  /-- A member of an enumeration. -/
  | member (path : String)
  | ok (value : Expr)
  | err (error : Expr)
  | action (a : Action)
  | type (t : TypeExpr)
  | variable (name : String)
  | field (of : Expr) (name : String)
  | add (left right : Expr)
  | size (of : Expr)

end

instance : Inhabited TypeExpr := ⟨.type .none⟩

instance : Inhabited Expr := ⟨.none⟩

/-- How two values are compared. -/
inductive Comparison
  | greater
  | equal
  deriving DecidableEq, Repr

/-- A statement of a body. Most are what contracts do with their context, logger and state and have a
trace for whoever watches; `act` is contract code of any other kind. -/
inductive Stmt
  /-- Add a value to the trace of the call. -/
  | observe (e : Expr)
  /-- Log the encoding of a value, by its own class or as a type, and trace the answer. -/
  | log (e : Expr) (as : Option TypeExpr)
  /-- Log bytes a number of times and trace the last answer. -/
  | logBytes (e : Expr) (times : Nat)
  /-- Read the parameter and trace the outcome. -/
  | parse (t : TypeExpr)
  /-- Read the parameter into `param`, or end the call with an error. -/
  | parseOrReject (t : TypeExpr)
  /-- Read the parameter into `param`, or fail with the message put before what was wrong. -/
  | parseOrFail (t : TypeExpr) (message : Option String)
  /-- Trace the reference to the state as it is shown. -/
  | showState
  /-- Operate on a stream of the parameter's bytes. -/
  | cursor (steps : List (StreamStep Expr))
  /-- Operate on the bytes of the state. -/
  | raw (steps : List (StreamStep Expr))
  /-- Change a field of the state. -/
  | set (field : String) (e : Expr)
  /-- Replace the state. -/
  | replace (e : Expr)
  /-- Append to the state. -/
  | push (e : Expr)
  /-- Set a key of the state. -/
  | put (key value : Expr)
  | onlyIf (comparison : Comparison) (left right : Expr) (body : List Stmt)
  /-- Run statements, trace a fault that they raise and go on. -/
  | attempt (body : List Stmt)
  | raise (kind : FaultKind) (message : String)
  | trap (reason : String)
  /-- Any other contract code. -/
  | act (code : Interaction)
  | ret (e : Expr)

/-- A field of a class as it is written. -/
structure Field where
  name : String
  type : TypeExpr
  given : Bool := true
  initial : Option Expr := none

/-- A value that a class does not accept for a field, with the fault that it raises then. It stands for
the checks that a class makes of its own when an instance is built. -/
structure Reject where
  field : String
  equals : Expr
  kind : FaultKind
  message : String

/-- The arguments of a decorator. -/
structure Arguments where
  items : List Expr := []
  options : List (String × Expr) := []

/-- What is done with a declared function or class. -/
inductive Decorator
  /-- Derive a codec for the given directions. -/
  | codec (directions : Directions)
  /-- Derive a schema. -/
  | schema
  /-- Export as a test. -/
  | test
  /-- Export as an entry point; no arguments is not the same as an empty list of them. -/
  | entryPoint (kind : EntryKind) (arguments : Option Arguments)
  /-- Export the schema of a state. -/
  | contractState (arguments : Arguments)

/-- A declaration, as a description writes it down. Declarations are executed in order, and each sees what
those before it have bound. -/
inductive Decl
  | dataclass (name : String) (fields : List Field) (frozen ordered : Bool) (base : Option String)
      (reject : Option Reject) (decorators : List Decorator)
  | namedTuple (name : String) (fields : List Field) (decorators : List Decorator)
  /-- An enumeration of members with values, or of so many numbered ones. -/
  | enum (name : String) (numeric : Bool) (members : List (String × Expr) ⊕ Nat)
      (decorators : List Decorator)
  | sum (name : String) (body : List Decl) (decorators : List Decorator)
  /-- Another name for what an earlier one stands for, or so many numbered other names. -/
  | alias (name : String) (of : String) (count : Option Nat)
  | const (name : String) (value : Expr)
  | plain (name : String) (decorators : List Decorator)
  | function (name : String) (params : List (String × Option TypeExpr)) (returns : Option TypeExpr)
      (body : List Stmt) (decorators : List Decorator)

end ContractKit.Source
