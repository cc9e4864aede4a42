import ContractKit.Document.Basic
import ContractKit.Source.Syntax

/-!
# `Source/OfDocument.lean`: reading contract descriptions

A contract description is a document: a list of declarations, each an object whose `kind` says what it
declares. Types are words or objects with one part that names the form; values are written as
themselves or as objects that name theirs; statements are lists that start with their name.

Reading is a recursion on a budget, and the depth of the document is always enough of it.
-/

set_option autoImplicit false

namespace ContractKit.Source

/-- The outcome of reading a document: what was read, or what was expected instead. -/
abbrev Reading := Except String

namespace Reading

/-- The outcome when something else was expected. -/
def expected {α : Type} (what : String) (d : Document) : Reading α :=
  .error s!"expected {what}, got {d.shown}"

def text : Document → Reading String
  | .text s => .ok s
  | d => expected "a text" d

def int : Document → Reading Int
  | .int n => .ok n
  | .object [("int", .text s)] =>
    match s.toInt? with
    | some n => .ok n
    | none => expected "a number" (.text s)
  | d => expected "a number" d

/-- The document as a number of things. -/
def nat (d : Document) : Reading Nat := do pure (← int d).toNat

def bool : Document → Reading Bool
  | .bool b => .ok b
  | d => expected "a truth value" d

/-- The document as bytes in hexadecimal. -/
def hex : Document → Reading Bytes
  | .text s =>
    match Bytes.ofHex? s with
    | some data => .ok data
    | none => expected "hexadecimal digits" (.text s)
  | d => expected "hexadecimal digits" d

def items : Document → Reading (List Document)
  | .list ds => .ok ds
  | d => expected "a list" d

/-- The part of an object, which has to be there. -/
def part (name : String) (d : Document) : Reading Document :=
  match d.part? name with
  | some d => .ok d
  | none => expected s!"an object with {name}" d

/-- The part of an object, read if it is there. -/
def optional {α : Type} (read : Document → Reading α) (name : String) (d : Document) :
    Reading (Option α) :=
  match d.given? name with
  | some d => (read d).map some
  | none => .ok none

/-- The truth value of a part of an object, false if it is not there. -/
def flag (name : String) (d : Document) : Reading Bool := do
  pure ((← optional bool name d).getD false)

/-- The items of a part of an object, none if it is not there. -/
def list {α : Type} (read : Document → Reading α) (name : String) (d : Document) :
    Reading (List α) := do
  match d.given? name with
  | some d => (← items d).mapM read
  | none => pure []

/-- A list of two as a name with something. -/
def named {α : Type} (read : Document → Reading α) (d : Document) : Reading (String × α) :=
  match d with
  | .list [name, d] => do pure (← text name, ← read d)
  | d => expected "a name with a value" d

/-! ## Actions and formats -/

/-- An action, of a depth below the budget. -/
def actionWithin : (budget : Nat) → Document → Reading Action
  | 0, d => expected "an action" d
  | budget + 1, d =>
    match d with
    | .text "accept" => .ok .accept
    | .object [("transfer", .list [recipient, amount])] => do
      pure (.transfer (← hex recipient) (← int amount))
    | .object [("send", .list [.list [index, subindex], name, amount, parameter])] => do
      let data ← match parameter with
        | .null => pure []
        | d => hex d
      pure (.send (← int index) (← int subindex) (← text name) (← int amount) data)
    | .object [("and_then", .list [a, b])] => do
      pure (.andThen (← actionWithin budget a) (← actionWithin budget b))
    | .object [("or_else", .list [a, b])] => do
      pure (.orElse (← actionWithin budget a) (← actionWithin budget b))
    | d => expected "an action" d

def action (d : Document) : Reading Action := actionWithin d.depth d

/-- The width in a format, the standard one where none is given. -/
def width : Document → Reading Int
  | .null => .ok PrefixWidth.standard.bytes
  | d => int d

/-- The width of a part of a format. -/
def widthPart (d : Document) : Reading Int := width ((d.part? "width").getD .null)

/-- What a collection is read into. -/
def builder : Document → Reading Builder
  | .text "list" => .ok .list
  | .text "tuple" => .ok .tuple
  | .text "set" => .ok .set
  | .text "frozenset" => .ok .frozenset
  | d => expected "a kind of collection" d

/-- A format, of a depth below the budget. -/
def formatWithin : (budget : Nat) → Document → Reading Format
  | 0, d => expected "a format" d
  | budget + 1, d =>
    match d with
    | .text "bool" => .ok .bool
    | .object [("int", .list [width, signed])] => do pure (.int (← int width) (← bool signed))
    | .object [("length", d)] => do pure (.length (← int d))
    | .object [("bytes", d)] => do pure (.bytes (← width d))
    | .object [("utf8", d)] => do pure (.text (← width d))
    | .object [("optional", d)] => do pure (.optional (← formatWithin budget d))
    | .object [("tuple", .list ds)] => do pure (.tuple (← ds.mapM (formatWithin budget)))
    | .object [("collection", d)] => do
      let item ← formatWithin budget (← part "item" d)
      let builder := (← optional builder "builder" d).getD .list
      pure (.collection item (← widthPart d) (← flag "sort" d) (← flag "strict" d) builder)
    | .object [("mapping", d)] => do
      let key ← formatWithin budget (← part "key" d)
      let value ← formatWithin budget (← part "value" d)
      pure (.mapping key value (← widthPart d) (← flag "sort" d) (← flag "strict" d))
    | d => expected "a format" d

def format (d : Document) : Reading Format := formatWithin d.depth d

/-- An operation on a stream, given how to read the value that it writes. -/
def step {α : Type} (value : Document → Reading α) (d : Document) : Reading (StreamStep α) :=
  match d with
  | .list [.text "write_byte", n] => do pure (.writeByte (← int n))
  | .list [.text "write_bytes", data] => do pure (.write (← hex data))
  | .list [.text "read_byte"] => .ok .readByte
  | .list [.text "peek_byte"] => .ok .peekByte
  | .list [.text "read_bytes", n] => do pure (.read (← int n))
  | .list [.text "peek_bytes", n] => do pure (.peek (← int n))
  | .list [.text "read_all"] => .ok .readAll
  | .list [.text "is_empty"] => .ok .isEmpty
  | .list [.text "finalize"] => .ok .finalize
  | .list [.text "cur_pos"] => .ok .position
  | .list [.text "size"] => .ok .size
  | .list [.text "seek", n] => do pure (.seek (← int n))
  | .list [.text "truncate"] | .list [.text "truncate", .null] => .ok (.truncate none)
  | .list [.text "truncate", n] => do pure (.truncate (some (← int n)))
  | .list [.text "enc", f, v] => do pure (.encode (← format f) (← value v))
  | .list [.text "dec", f] => do pure (.decode (← format f))
  | d => expected "an operation on a stream" d

/-! ## Types and values -/

/-- A class of the runtime as a type. -/
def runtimeClass (name module : String) : Ty :=
  .cls ⟨.native name, name, "concordium_derive.runtime." ++ module⟩

def words : List (String × Ty) :=
  (SizedInt.all.map fun i => (i.name, Ty.sized i)) ++
  [("AccountAddress", .accountAddress), ("ContractAddress", .cls .contractAddress),
   ("bool", .bool), ("str", .text), ("bytes", .bytes), ("int", .int), ("float", .float),
   ("Any", .any), ("None", .none), ("list", .bare .list), ("dict", .bare .dict),
   ("set", .bare .set), ("frozenset", .bare .frozenset), ("tuple", .bare .tuple), ("...", .dots),
   ("InitContext", runtimeClass "InitContext" "context"),
   ("ReceiveContext", runtimeClass "ReceiveContext" "context"),
   ("Logger", runtimeClass "Logger" "logger"),
   ("ContractState", runtimeClass "ContractState" "state"),
   ("Action", runtimeClass "Action" "actions")]

/-- The parts of an object that is a type or a value of some form, that form first. -/
def formOf (forms : List String) (d : Document) : Option (String × Document) :=
  forms.findSome? fun form => (d.part? form).map fun part => (form, part)

def typeForms : List String :=
  ["list", "set", "frozenset", "vartuple", "tuple", "dict", "optional", "union", "bar", "annotated",
   "ref", "forward", "Ok", "Err", "Result", "StateRef"]

def valueForms : List String :=
  ["obj", "int", "bytes", "list", "tuple", "set", "frozenset", "dict", "member", "action", "Ok",
   "Err", "class", "rep_bytes", "rep_str", "rep_list", "range_set", "range_dict", "var", "get",
   "add", "len"]

mutual

/-- A type, of a depth below the budget. -/
def typeWithin : (budget : Nat) → Document → Reading TypeExpr
  | 0, d => expected "a type" d
  | budget + 1, d =>
    match d, formOf typeForms d with
    | .text word, _ =>
      match words.lookup word with
      | some t => .ok (.type t)
      | none => expected "a type" d
    | .null, _ => .ok (.type .none)
    | _, some ("list", d) => do pure (.list (← typeWithin budget d))
    | _, some ("set", d) => do pure (.set (← typeWithin budget d))
    | _, some ("frozenset", d) => do pure (.frozenset (← typeWithin budget d))
    | _, some ("vartuple", d) => do pure (.varTuple (← typeWithin budget d))
    | _, some ("tuple", .list ds) => do pure (.tuple (← ds.mapM (typeWithin budget)))
    | _, some ("dict", .list [k, v]) => do
      pure (.dict (← typeWithin budget k) (← typeWithin budget v))
    | _, some ("optional", d) => do pure (.optional (← typeWithin budget d))
    | _, some ("union", .list ds) => do pure (.union (← ds.mapM (typeWithin budget)))
    | _, some ("bar", .list [a, b]) => do
      pure (.bar (← typeWithin budget a) (← typeWithin budget b))
    | whole, some ("annotated", d) => do
      let metadata ← list (markerWithin budget) "markers" whole
      pure (.annotated (← typeWithin budget d) metadata)
    | _, some ("ref", .text path) => .ok (.named path)
    | _, some ("forward", .text name) => .ok (.forward name)
    | _, some ("Ok", d) => do pure (.ok (← typeWithin budget d))
    | _, some ("Err", d) => do pure (.err (← typeWithin budget d))
    | _, some ("Result", .list [a, b]) => do
      pure (.result (← typeWithin budget a) (← typeWithin budget b))
    | _, some ("StateRef", d) => do pure (.stateRef (← typeWithin budget d))
    | d, _ => expected "a type" d

/-- A piece of metadata, of a depth below the budget. -/
def markerWithin : (budget : Nat) → Document → Reading MetadataExpr
  | 0, d => expected "metadata" d
  | budget + 1, d =>
    match d with
    | .text s => .ok (.text s)
    | d => do
      let items ← list (valueWithin budget) "items" d
      let options ← list (named (valueWithin budget)) "options" d
      pure (.marker items options)

/-- A value, of a depth below the budget. -/
def valueWithin : (budget : Nat) → Document → Reading Expr
  | 0, d => expected "a value" d
  | budget + 1, d =>
    match d, formOf valueForms d with
    | .null, _ => .ok .none
    | .bool b, _ => .ok (.bool b)
    | .int n, _ => .ok (.int n)
    | .text s, _ => .ok (.text s)
    | whole, some ("obj", path) => do
      let fields ← list (named (valueWithin budget)) "fields" whole
      pure (.record (← text path) (← flag "raw" whole) fields)
    | whole, some ("int", _) => do pure (.int (← int whole))
    | _, some ("bytes", d) => do pure (.bytes (← hex d))
    | _, some ("list", .list ds) => do pure (.list (← ds.mapM (valueWithin budget)))
    | _, some ("tuple", .list ds) => do pure (.tuple (← ds.mapM (valueWithin budget)))
    | _, some ("set", .list ds) => do pure (.set (← ds.mapM (valueWithin budget)))
    | _, some ("frozenset", .list ds) => do pure (.frozenset (← ds.mapM (valueWithin budget)))
    | _, some ("dict", .list ds) => do
      pure (.dict (← ds.mapM fun
        | .list [k, v] => do pure (← valueWithin budget k, ← valueWithin budget v)
        | d => expected "a key with a value" d))
    | _, some ("member", .text path) => .ok (.member path)
    | _, some ("action", d) => do pure (.action (← action d))
    | _, some ("Ok", d) => do pure (.ok (← valueWithin budget d))
    | _, some ("Err", d) => do pure (.err (← valueWithin budget d))
    | _, some ("class", d) => do pure (.type (← typeWithin budget d))
    | _, some ("rep_bytes", .list [data, n]) => do
      pure (.bytes (List.replicate (← nat n) (← hex data)).flatten)
    | _, some ("rep_str", .list [s, n]) => do
      pure (.text (String.join (List.replicate (← nat n) (← text s))))
    | _, some ("rep_list", .list [d, n]) => do
      pure (.repeated (← valueWithin budget d) (← nat n))
    | _, some ("range_set", .list [a, b]) => do pure (.intSet (← int a) (← int b))
    | _, some ("range_dict", .list [a, b, d]) => do
      pure (.intDict (← int a) (← int b) (← valueWithin budget d))
    | _, some ("var", .text name) => .ok (.variable name)
    | _, some ("get", .list [d, name]) => do
      pure (.field (← valueWithin budget d) (← text name))
    | _, some ("add", .list [a, b]) => do
      pure (.add (← valueWithin budget a) (← valueWithin budget b))
    | _, some ("len", d) => do pure (.size (← valueWithin budget d))
    | d, _ => expected "a value" d

end

def type (d : Document) : Reading TypeExpr := typeWithin d.depth d

def value (d : Document) : Reading Expr := valueWithin d.depth d

/-! ## Statements -/

def comparison : Document → Reading Comparison
  | .text "gt" => .ok .greater
  | .text "eq" => .ok .equal
  | d => expected "a comparison" d

/-- A statement, of a depth below the budget. -/
def stmtWithin : (budget : Nat) → Document → Reading Stmt
  | 0, d => expected "a statement" d
  | budget + 1, d =>
    match d with
    | .list [.text "observe", e] => do pure (.observe (← value e))
    | .list [.text "log", e] => do pure (.log (← value e) none)
    | .list [.text "log_as", t, e] => do pure (.log (← value e) (some (← type t)))
    | .list [.text "log_bytes", e] => do pure (.logBytes (← value e) 1)
    | .list [.text "log_bytes", e, n] => do pure (.logBytes (← value e) (← nat n))
    | .list [.text "parse", t] => do pure (.parse (← type t))
    | .list [.text "parse_or_reject", t] => do pure (.parseOrReject (← type t))
    | .list [.text "parse_unwrap", t] => do pure (.parseOrFail (← type t) none)
    | .list [.text "parse_expect", t, message] => do
      pure (.parseOrFail (← type t) (some (← text message)))
    | .list [.text "repr_ref"] => .ok .showState
    | .list [.text "cursor", .list ds] => do pure (.cursor (← ds.mapM (step value)))
    | .list [.text "raw", .list ds] => do pure (.raw (← ds.mapM (step value)))
    | .list [.text "set", field, e] => do pure (.set (← text field) (← value e))
    | .list [.text "replace", e] => do pure (.replace (← value e))
    | .list [.text "push", e] => do pure (.push (← value e))
    | .list [.text "put", k, v] => do pure (.put (← value k) (← value v))
    | .list [.text "if", c, a, b, .list ds] => do
      pure (.onlyIf (← comparison c) (← value a) (← value b) (← ds.mapM (stmtWithin budget)))
    | .list [.text "try", .list ds] => do pure (.attempt (← ds.mapM (stmtWithin budget)))
    | .list [.text "raise", kind, message] => do
      pure (.raise (FaultKind.ofWord (← text kind)) (← text message))
    | .list [.text "trap"] => .ok (.trap "")
    | .list [.text "trap", reason] => do pure (.trap (← text reason))
    | .list [.text "ok", e] => do pure (.ret (.ok (← value e)))
    | .list [.text "err", e] => do pure (.ret (.err (← value e)))
    | .list [.text "action", a] => do pure (.ret (.ok (.action (← action a))))
    | .list [.text "return", e] => do pure (.ret (← value e))
    | d => expected "a statement" d

def stmt (d : Document) : Reading Stmt := stmtWithin d.depth d

/-! ## Declarations -/

def arguments (d : Document) : Reading Arguments := do
  pure ⟨← list value "items" d, ← list (named value) "options" d⟩

def decorator (d : Document) : Reading Decorator :=
  match d with
  | .text "serialize" => .ok (.codec ⟨true, true⟩)
  | .text "serial" => .ok (.codec ⟨true, false⟩)
  | .text "deserial" => .ok (.codec ⟨false, true⟩)
  | .text "schema_type" => .ok .schema
  | .text "concordium_test" => .ok .test
  | .text "init" => .ok (.entryPoint .init none)
  | .text "receive" => .ok (.entryPoint .receive none)
  | .object [("init", d)] => do pure (.entryPoint .init (some (← arguments d)))
  | .object [("receive", d)] => do pure (.entryPoint .receive (some (← arguments d)))
  | .object [("contract_state", d)] => do pure (.contractState (← arguments d))
  | d => expected "a decorator" d

def field (d : Document) : Reading Field := do
  let initial ← match d.part? "default" with
    | some d => do pure (some (← value d))
    | none => pure none
  pure ⟨← text (← part "name" d), ← type (← part "type" d),
    (← optional bool "init" d).getD true, initial⟩

/-- What a class does not accept for a field. -/
def reject (d : Document) : Reading Reject := do
  let message ← optional text "message" d
  pure ⟨← text (← part "field" d), ← value (← part "equals" d),
    FaultKind.ofWord (← text (← part "kind" d)), message.getD ""⟩

/-- The members of an enumeration, or their number. -/
def members (d : Document) : Reading (List (String × Expr) ⊕ Nat) :=
  match d.given? "count" with
  | some n => do pure (.inr (← nat n))
  | none => do pure (.inl (← list (named value) "members" d))

/-- An argument of a function. -/
def param (d : Document) : Reading (String × Option TypeExpr) := do
  pure (← text (← part "name" d), ← optional type "type" d)

/-- A declaration, of a depth below the budget. -/
def declWithin : (budget : Nat) → Document → Reading Decl
  | 0, d => expected "a declaration" d
  | budget + 1, d => do
    let name ← text (← part "name" d)
    let decorators ← list decorator "decorators" d
    match ← text (← part "kind" d) with
    | "dataclass" =>
      pure (.dataclass name (← list field "fields" d) (← flag "frozen" d) (← flag "order" d)
        (← optional text "base" d) (← optional reject "reject" d) decorators)
    | "namedtuple" => pure (.namedTuple name (← list field "fields" d) decorators)
    | "enum" =>
      let base ← optional text "base" d
      pure (.enum name (base == some "IntEnum") (← members d) decorators)
    | "sum" => pure (.sum name (← list (declWithin budget) "variants" d) decorators)
    | "alias" => pure (.alias name (← text (← part "of" d)) (← optional nat "count" d))
    | "const" => pure (.const name (← value (← part "value" d)))
    | "plain" => pure (.plain name decorators)
    | "function" =>
      pure (.function name (← list param "params" d) (← optional type "returns" d)
        (← list stmt "body" d) decorators)
    | kind => .error s!"unknown kind of declaration: {kind}"

def decl (d : Document) : Reading Decl := declWithin d.depth d

def decls (d : Document) : Reading (List Decl) := do (← items d).mapM decl

end Reading

end ContractKit.Source
