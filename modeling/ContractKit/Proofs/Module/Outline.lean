import ContractKit.Module.Decorate
import ContractKit.Proofs.Fault.Gather

/-!
# `Proofs/Module/Outline.lean`: what evaluating looks at

Types, values and names are evaluated in a module, and all that is looked at there is what was declared:
the forms of the classes, the names of the functions, what each name is bound to. What decorators derive
and record is never asked for. `Module.outline` is the module without it, and evaluating in a module is
evaluating in its outline (`Scope.value_outline`), so that two modules of one outline evaluate alike
(`Scope.value_congr`).
-/

set_option autoImplicit false

namespace ContractKit

open Source

/-- What begins alike and goes on alike. -/
theorem bind_both {M : Type → Type} [Monad M] {α β : Type} {x y : M α} {f g : α → M β} (hx : x = y)
    (hf : ∀ a, f a = g a) : (x >>= f) = (y >>= g) := by
  rw [hx, funext hf]

/-- The class as it was declared, with nothing derived for it and nothing recorded on it. -/
def ClassEntry.outline (e : ClassEntry) : ClassEntry :=
  { e with facts := {}, shape := none, exports := [] }

/-- The function as it was declared. -/
def FunctionEntry.outline (fn : FunctionEntry) : FunctionEntry := { fn with exports := [] }

namespace Module

/-- What was declared. -/
def outline (m : Module) : Module where
  classes := m.classes.map ClassEntry.outline
  functions := m.functions.map FunctionEntry.outline
  names := m.names
  chars := m.chars

variable (m : Module)

theorem getElem?_outline (place : Nat) :
    m.outline.classes[place]? = (m.classes[place]?).map ClassEntry.outline := List.getElem?_map

/-! ## Names -/

/-- Names stand for the same things in both modules. What is derived for a class may differ: nothing
that evaluates a name or a value looks at that. -/
structure SameNames (a b : Module) : Prop where
  names : a.names = b.names
  classes : a.classes.map (fun e => (e.ref, e.scope)) = b.classes.map fun e => (e.ref, e.scope)
  functions : a.functions.map (·.name) = b.functions.map (·.name)

namespace SameNames

variable {a b : Module}

theorem getElem?_classes (h : a.SameNames b) (place : Nat) :
    (a.classes[place]?).map (fun e => (e.ref, e.scope)) =
      (b.classes[place]?).map fun e => (e.ref, e.scope) := by
  rw [← List.getElem?_map, h.classes, List.getElem?_map]

theorem getElem?_functions (h : a.SameNames b) (place : Nat) :
    (a.functions[place]?).map (·.name) = (b.functions[place]?).map (·.name) := by
  rw [← List.getElem?_map, h.functions, List.getElem?_map]

theorem valueOf (h : a.SameNames b) (bound : Binding) : a.valueOf bound = b.valueOf bound := by
  cases bound with
  | cls place =>
    have hplace := h.getElem?_classes place
    simp only [Module.valueOf]
    cases ha : a.classes[place]? <;> cases hb : b.classes[place]? <;> simp_all
  | function place =>
    have hplace := h.getElem?_functions place
    simp only [Module.valueOf]
    cases ha : a.functions[place]? <;> cases hb : b.functions[place]? <;> simp_all
  | value v => rfl

theorem follow (h : a.SameNames b) (bound : Binding) (path : List String) :
    a.follow bound path = b.follow bound path := by
  induction path generalizing bound with
  | nil => cases bound <;> rfl
  | cons part rest ih =>
    cases bound with
    | cls place =>
      have hplace := h.getElem?_classes place
      simp only [Module.follow, ih]
      cases ha : a.classes[place]? <;> cases hb : b.classes[place]? <;> simp_all
    | function place => rfl
    | value v => rfl

theorem lookupIn (h : a.SameNames b) (inner : Names) (path : String) :
    a.lookupIn inner path = b.lookupIn inner path := by
  simp only [Module.lookupIn, h.names, h.follow]

theorem typeNamedWithin (h : a.SameNames b) (fuel : Nat) (name : String) :
    a.typeNamedWithin fuel name = b.typeNamedWithin fuel name := by
  induction fuel generalizing name with
  | zero => rfl
  | succ fuel ih =>
    have hlookup : a.lookup name = b.lookup name := h.lookupIn [] name
    simp only [Module.typeNamedWithin, hlookup, h.valueOf, ih]

/-- **Types have the same names in both modules.** -/
theorem typeNamed (h : a.SameNames b) : a.typeNamed = b.typeNamed := by
  funext name
  rw [Module.typeNamed, Module.typeNamed, h.names, h.typeNamedWithin]

end SameNames

theorem sameNames_outline : m.outline.SameNames m where
  names := rfl
  classes := by simp [outline, ClassEntry.outline]
  functions := by simp [outline, FunctionEntry.outline]

theorem valueOf_outline (b : Binding) : m.outline.valueOf b = m.valueOf b :=
  m.sameNames_outline.valueOf b

theorem lookupIn_outline (inner : Names) (path : String) :
    m.outline.lookupIn inner path = m.lookupIn inner path :=
  m.sameNames_outline.lookupIn inner path

theorem typeNamed_outline : m.outline.typeNamed = m.typeNamed := m.sameNames_outline.typeNamed

/-! ## Instances -/

theorem targetNamed?_outline (inner : Names) (path : String) :
    m.outline.targetNamed? inner path = m.targetNamed? inner path := by
  unfold targetNamed?
  rw [lookupIn_outline]
  split
  · rw [getElem?_outline]
    rename_i place _
    cases m.classes[place]? <;> rfl
  all_goals rfl

theorem build_outline (inner : Names) (path : String) (raw : Bool) (given : List (String × Value)) :
    m.outline.build inner path raw given = m.build inner path raw given := by
  unfold build
  rw [targetNamed?_outline]

theorem memberNamed_outline (inner : Names) (path : String) :
    m.outline.memberNamed inner path = m.memberNamed inner path := by
  unfold memberNamed
  simp only [lookupIn_outline]
  split
  · rw [getElem?_outline]
    rename_i place _
    cases m.classes[place]? <;> rfl
  · rfl

end Module

namespace Scope

/-- The scope with the outline of its module. -/
def outline (scope : Scope) : Scope := { scope with module := scope.module.outline }

variable (scope : Scope)

theorem module_outline : scope.outline.module = scope.module.outline := rfl

theorem inner_outline : scope.outline.inner = scope.inner := rfl

theorem operandKind_outline (t : Ty) : scope.outline.operandKind t = scope.operandKind t := by
  cases t with
  | cls ref =>
    simp only [operandKind, module_outline, Module.getElem?_outline]
    cases ref.id with
    | native name => rfl
    | declared place =>
      dsimp only
      cases scope.module.classes[place]? <;> rfl
  | union spelling members => cases spelling <;> rfl
  | _ => rfl

theorem bar_outline (left right : Ty) : scope.outline.bar left right = scope.bar left right := by
  simp only [bar, operandKind_outline]

mutual

theorem hint_outline : ∀ t : TypeExpr, hint scope.outline t = hint scope t
  | .annotated base metadata =>
    bind_both (hint_outline base) fun _ => bind_both (metadataOf_outline metadata) fun _ => rfl
  | .type _ | .forward _ => rfl
  | .named path => by
    simp only [hint, module_outline, inner_outline, Module.lookupIn_outline,
      Module.valueOf_outline]
  | .list t | .set t | .frozenset t | .varTuple t | .optional t | .ok t | .err t | .stateRef t =>
    bind_both (hint_outline t) fun _ => rfl
  | .tuple ts | .union ts => bind_both (types_outline ts) fun _ => rfl
  | .dict a b | .result a b =>
    bind_both (hint_outline a) fun _ => bind_both (hint_outline b) fun _ => rfl
  | .bar a b => bind_both (hint_outline a) fun _ => bind_both (hint_outline b) fun _ =>
    bind_both (scope.bar_outline _ _) fun _ => rfl

theorem types_outline : ∀ ts : List TypeExpr, types scope.outline ts = types scope ts
  | [] => rfl
  | t :: ts => bind_both (hint_outline t) fun _ => bind_both (types_outline ts) fun _ => rfl

theorem metadataOf_outline : ∀ ms : List MetadataExpr,
    metadataOf scope.outline ms = metadataOf scope ms
  | [] => rfl
  | .text _ :: rest => bind_both (metadataOf_outline rest) fun _ => rfl
  | .marker items options :: rest =>
    bind_both (values_outline items) fun _ => bind_both (namedValues_outline options) fun _ =>
      bind_both rfl fun _ => bind_both (metadataOf_outline rest) fun _ => rfl

/-- **Evaluating in a module is evaluating in its outline.** So what is derived for classes is no matter
for values, and neither are the exports that were recorded. -/
theorem value_outline : ∀ e : Expr, value scope.outline e = value scope e
  | .none | .bool _ | .int _ | .text _ | .bytes _ | .action _ | .intSet _ _ | .variable _ => rfl
  | .list items | .tuple items | .set items | .frozenset items =>
    bind_both (values_outline items) fun _ => rfl
  | .dict entries => bind_both (pairs_outline entries) fun _ => rfl
  | .repeated item _ => bind_both (value_outline item) fun _ => rfl
  | .intDict _ _ v => bind_both (value_outline v) fun _ => rfl
  | .record path raw fields => bind_both (namedValues_outline fields) fun _ =>
    scope.module.build_outline scope.inner path raw _
  | .member path => scope.module.memberNamed_outline scope.inner path
  | .ok v | .err v | .field v _ | .size v => bind_both (value_outline v) fun _ => rfl
  | .type t => bind_both (hint_outline t) fun _ => rfl
  | .add left right =>
    bind_both (value_outline left) fun _ => bind_both (value_outline right) fun _ => rfl

theorem values_outline : ∀ es : List Expr, values scope.outline es = values scope es
  | [] => rfl
  | e :: es => bind_both (value_outline e) fun _ => bind_both (values_outline es) fun _ => rfl

theorem namedValues_outline : ∀ es : List (String × Expr),
    namedValues scope.outline es = namedValues scope es
  | [] => rfl
  | (_, e) :: es =>
    bind_both (value_outline e) fun _ => bind_both (namedValues_outline es) fun _ => rfl

theorem pairs_outline : ∀ es : List (Expr × Expr), pairs scope.outline es = pairs scope es
  | [] => rfl
  | (k, v) :: es => bind_both (value_outline k) fun _ => bind_both (value_outline v) fun _ =>
    bind_both (pairs_outline es) fun _ => rfl

end

end Scope

/-! ## Modules of one outline -/

/-- What is changed at one place of a list and looked at through a view is changed in the view. -/
theorem map_modify {α β : Type} {view : α → β} {f : α → α} {g : β → β} {as : List α} {place : Nat}
    (h : ∀ a, as[place]? = some a → view (f a) = g (view a)) :
    (as.modify place f).map view = (as.map view).modify place g := by
  apply List.ext_getElem?
  intro i
  rw [List.getElem?_map, List.getElem?_modify, List.getElem?_modify, List.getElem?_map]
  by_cases hi : place = i
  · subst hi
    cases ha : as[place]? with
    | none => rfl
    | some a => simp [h a ha]
  · simp [hi]

/-- A change that the view does not show. -/
theorem map_modify_of_eq {α β : Type} {view : α → β} {f : α → α} {as : List α} {place : Nat}
    (h : ∀ a, as[place]? = some a → view (f a) = view a) :
    (as.modify place f).map view = as.map view := by
  rw [map_modify (g := id) h, List.modify_id]

theorem Module.outline_modifyClass {m : Module} {place : Nat} {f : ClassEntry → ClassEntry}
    (hf : ∀ e, (f e).outline = e.outline) : (m.modifyClass place f).outline = m.outline := by
  simp only [outline, modifyClass, map_modify_of_eq fun e _ => hf e]

theorem Module.outline_modifyFunction {m : Module} {place : Nat} {f : FunctionEntry → FunctionEntry}
    (hf : ∀ fn, (f fn).outline = fn.outline) : (m.modifyFunction place f).outline = m.outline := by
  simp only [outline, modifyFunction, map_modify_of_eq fun fn _ => hf fn]

/-- Names keep what they stand for when a class is changed, unless it is called otherwise. -/
theorem Module.sameNames_modifyClass {m : Module} {place : Nat} {f : ClassEntry → ClassEntry}
    (href : ∀ e, (f e).ref = e.ref) (hscope : ∀ e, (f e).scope = e.scope) :
    (m.modifyClass place f).SameNames m where
  names := rfl
  classes := map_modify_of_eq fun e _ => by rw [href, hscope]
  functions := rfl

theorem Module.lookupIn_congr {a b : Module} (h : a.outline = b.outline) : a.lookupIn = b.lookupIn := by
  funext inner path
  rw [← a.lookupIn_outline, h, b.lookupIn_outline]

theorem Module.chars_congr {a b : Module} (h : a.outline = b.outline) : a.chars = b.chars :=
  congrArg (·.chars) h

theorem Module.typeNamed_congr {a b : Module} (h : a.outline = b.outline) :
    a.typeNamed = b.typeNamed := by
  rw [← a.typeNamed_outline, h, b.typeNamed_outline]

namespace Scope

variable {a b : Scope}

theorem hint_congr (h : a.outline = b.outline) (t : TypeExpr) : hint a t = hint b t := by
  rw [← a.hint_outline, h, b.hint_outline]

theorem type_congr (h : a.outline = b.outline) (t : TypeExpr) : a.type t = b.type t :=
  bind_both (hint_congr h t) fun _ => rfl

theorem value_congr (h : a.outline = b.outline) (e : Expr) : value a e = value b e := by
  rw [← a.value_outline, h, b.value_outline]

theorem values_congr (h : a.outline = b.outline) (es : List Expr) : values a es = values b es := by
  rw [← a.values_outline, h, b.values_outline]

theorem namedValues_congr (h : a.outline = b.outline) (es : List (String × Expr)) :
    namedValues a es = namedValues b es := by
  rw [← a.namedValues_outline, h, b.namedValues_outline]

end Scope

end ContractKit
