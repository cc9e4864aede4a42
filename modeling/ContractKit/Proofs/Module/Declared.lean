import ContractKit.Module.Declare
import ContractKit.Proofs.Module.Decorated

/-!
# `Proofs/Module/Declared.lean`: what holds of every module that is declared

What holds of the empty module, and is kept by the few things that declarations do to one, holds of
whatever `Module.ofDecls` makes (`Invariant.ofDecls`). `Module.Described` is the invariant that all
others rest on. A new class has nothing derived for it yet, and what has to be seen of it is that its
form is sound: members are told apart by the values that they are declared with, and two variants of
one identity are one class.
-/

set_option autoImplicit false

namespace ContractKit

/-! ## Members -/

/-- Two members that differ in their names, and in their numbers if they have some. -/
def Member.Differs (a b : Member) : Prop :=
  a.name ≠ b.name ∧ ∀ n, a.number = some n → b.number ≠ some n

theorem Member.Differs.beq_eq_false {ref : ClassRef} {a b : Member} (h : a.Differs b) :
    (a.value ref).beq (b.value ref) = false := by
  obtain ⟨hname, hnumber⟩ := h
  cases ha : a.number with
  | some n =>
    have hb := hnumber n ha
    simp [Member.value, Value.beq, Value.number?, ha, hb]
  | none =>
    cases hb : b.number with
    | some k => simp [Member.value, Value.beq, ha, hb]
    | none => simp [Member.value, Value.beq, ha, hb, hname]

namespace Module

/-- A member has the name and the number that it is declared with, and its value repeats none of the
values before it. -/
theorem mem_distinctMembers {numeric : Bool} {m : Member} :
    ∀ {members : List (String × Value)} {seen : List (Value × Member)},
      m ∈ (distinctMembers numeric seen members).1 →
        ∃ v, (m.name, v) ∈ members ∧ (∀ n, m.number = some n → v.number? = some n) ∧
          ∀ e ∈ seen, e.1.beq v = false
  | [], seen, h => nomatch h
  | (name, v) :: rest, seen, h => by
    rw [distinctMembers] at h
    cases hfind : seen.find? fun entry => entry.1.beq v with
    | some entry =>
      rw [hfind] at h
      obtain ⟨w, hw, hnumber, hseen⟩ := mem_distinctMembers h
      exact ⟨w, List.mem_cons_of_mem _ hw, hnumber, hseen⟩
    | none =>
      rw [hfind] at h
      rcases List.mem_cons.mp h with rfl | h
      · refine ⟨v, List.mem_cons_self, fun n hn => ?_, fun e he => ?_⟩
        · cases numeric with
          | true => exact hn
          | false => cases hn
        · simpa using List.find?_eq_none.mp hfind e he
      · obtain ⟨w, hw, hnumber, hseen⟩ := mem_distinctMembers h
        exact ⟨w, List.mem_cons_of_mem _ hw, hnumber, fun e he => hseen e (List.mem_append_left _ he)⟩

/-- **Members that are declared with names of their own are told apart.** -/
theorem differs_distinctMembers {numeric : Bool} :
    ∀ {members : List (String × Value)} {seen : List (Value × Member)},
      (members.map (·.1)).Nodup → (distinctMembers numeric seen members).1.Pairwise Member.Differs
  | [], seen, _ => .nil
  | (name, v) :: rest, seen, h => by
    obtain ⟨hname, hrest⟩ := List.nodup_cons.mp h
    rw [distinctMembers]
    cases hfind : seen.find? fun entry => entry.1.beq v with
    -- a repeated value is another name for an earlier member, and adds none
    | some entry => exact differs_distinctMembers hrest
    | none =>
      refine List.pairwise_cons.mpr ⟨fun b hb => ?_, differs_distinctMembers hrest⟩
      obtain ⟨w, hw, hnumber, hseen⟩ := mem_distinctMembers hb
      refine ⟨fun hne => ?_, fun n hn hbn => ?_⟩
      · exact hname (List.mem_map.mpr ⟨_, hw, hne.symm⟩)
      · cases numeric with
        | false => cases hn
        | true =>
          have hdiffer := hseen _ (List.mem_append_right _ (List.mem_singleton.mpr rfl))
          rw [(Value.beq_of_number? hn (hnumber n hbn)).mpr rfl] at hdiffer
          cases hdiffer

/-- Names that are accepted differ from each other and from the earlier ones. -/
theorem nodup_of_checkNames : ∀ {members earlier : List (String × Value)},
    checkNames earlier members = .ok () →
      (members.map (·.1)).Nodup ∧ ∀ e ∈ members, earlier.lookup e.1 = none
  | [], earlier, _ => ⟨.nil, nofun⟩
  | (name, v) :: rest, earlier, h => by
    rw [checkNames] at h
    cases hlookup : earlier.lookup name with
    | some old =>
      rw [hlookup] at h
      cases h
    | none =>
      rw [hlookup] at h
      obtain ⟨hnodup, hrest⟩ := nodup_of_checkNames h
      have hother : ∀ e ∈ rest, e.1 ≠ name ∧ earlier.lookup e.1 = none := by
        intro e he
        have hnone := hrest e he
        rw [List.lookup_cons] at hnone
        by_cases hname : e.1 = name
        · simp [hname] at hnone
        · have hne : (e.1 == name) = false := by simpa using hname
          rw [hne] at hnone
          exact ⟨hname, hnone⟩
      refine ⟨List.nodup_cons.mpr ⟨fun hmem => ?_, hnodup⟩, fun e he => ?_⟩
      · obtain ⟨e, he, hname⟩ := List.mem_map.mp hmem
        exact (hother e he).1 hname
      · rcases List.mem_cons.mp he with rfl | he
        · exact hlookup
        · exact (hother e he).2

/-- The digits of a number tell which one it is. -/
theorem toString_injective {i j : Nat} (h : toString i = toString j) : i = j := by
  have hdigits : Nat.toDigits 10 i = Nat.toDigits 10 j := by
    rw [← Nat.toList_repr, ← Nat.toList_repr]
    exact congrArg String.toList h
  rw [← Nat.ofDigitChars_ten_toDigits (n := i), hdigits, Nat.ofDigitChars_ten_toDigits]

theorem differs_numberedMembers {numeric : Bool} {count : Nat} :
    (numberedMembers numeric count).Pairwise Member.Differs := by
  rw [numberedMembers, List.pairwise_map]
  refine List.nodup_range.imp fun {i j} hne => ⟨fun hname => hne ?_, fun n hi hj => hne ?_⟩
  · have hname : "M" ++ toString i = "M" ++ toString j := hname
    exact toString_injective ((String.append_right_inj _).mp hname)
  · cases numeric with
    | false => cases hi
    | true =>
      have h : (i : Int) = j := Option.some.inj (hi.trans hj.symm)
      exact Int.ofNat.inj h

/-! ## Classes -/

/-- Nothing is derived for a class yet. A declared class starts so, and its decorators run after it has
a place in the module. -/
structure Fresh (m : Module) (e : ClassEntry) : Prop where
  id : e.ref.id = .declared m.classes.length
  form : e.form.Sound e.ref
  shape : e.shape = none
  codec : e.facts.codec = none
  schema : e.facts.schema = none

/-- The variants of a sum are declared classes. -/
theorem mem_variants {m : Module} {body : Names} {decl : RecordDecl} (h : decl ∈ m.variants body) :
    ∃ (place : Nat) (e : ClassEntry), m.classes[place]? = some e ∧ e.form = .record decl := by
  obtain ⟨⟨name, b⟩, -, hb⟩ := List.mem_filterMap.mp h
  cases b with
  | cls place =>
    cases hentry : m.classes[place]? with
    | none => simp [hentry] at hb
    | some e =>
      refine ⟨place, e, hentry, ?_⟩
      cases hform : e.form with
      | record found =>
        simp only [hentry, hform, Option.some.injEq] at hb
        rw [hb]
      | _ => simp [hentry, hform] at hb
  | function place => cases hb
  | value v => cases hb

namespace Described

/-- A class with nothing derived for it changes nothing for the others. -/
theorem addClass {m : Module} {e : ClassEntry} (h : m.Described) (hfresh : m.Fresh e) :
    (m.addClass e).1.Described := by
  have hmore : m.layouts.Extends (m.addClass e).1.layouts := by
    intro id walk hwalk
    cases id with
    | native name => cases hwalk
    | declared i =>
      rw [← hwalk, find_layouts, find_layouts]
      -- the new class stands behind the others, where nothing was known before
      by_cases hi : i < m.classes.length
      · rw [facts, facts, Module.addClass, List.getElem?_append_left hi]
      · rw [find_layouts, facts, List.getElem?_eq_none (Nat.le_of_not_lt hi)] at hwalk
        cases hwalk
  intro i e' he'
  rw [Module.addClass, List.getElem?_append] at he'
  split at he'
  · exact (h i e' he').mono hmore
  · rename_i hi
    rw [List.getElem?_singleton] at he'
    by_cases hzero : i - m.classes.length = 0
    · rw [if_pos hzero] at he'
      obtain rfl := Option.some.inj he'
      have hplace : i = m.classes.length := by omega
      rw [hplace]
      exact
        { id := hfresh.id
          form := hfresh.form
          shape := fun shape hs => by simp [hfresh.shape] at hs
          codec := fun c hc => by simp [hfresh.codec] at hc
          schema := fun s hs => by simp [hfresh.schema] at hs }
    · rw [if_neg hzero] at he'
      cases he'

end Described

/-! ## Invariants -/

/-- What everything that declarations do keeps of a module. There is a field for each thing that they
can do, and `ofDecls` then has the property by one induction over the declarations. -/
structure Invariant (settings : LoadedSettings) (P : Module → Prop) : Prop
    extends DecoratorInvariant settings P where
  described : ∀ {m : Module}, P m → m.Described
  names : ∀ {m : Module} (names : Names), P m → P { m with names }
  addClass : ∀ {m : Module} {e : ClassEntry}, P m → m.Fresh e → e.exports = [] →
    P (m.addClass e).1
  addFunction : ∀ {m : Module} {fn : FunctionEntry}, P m → fn.exports = [] →
    P { m with functions := m.functions ++ [fn] }

theorem Described.invariant (settings : LoadedSettings) : Invariant settings Described where
  toDecoratorInvariant := decoratorInvariant settings
  described h := h
  names _ h := h.of_classes rfl
  addClass h hfresh _ := h.addClass hfresh
  addFunction h _ := h.of_classes rfl

namespace Invariant

variable {P : Module → Prop} {m m' : Module} {settings : LoadedSettings} {scope : Scope}
  {name : String} {place : Nat}

theorem dataclass {fields : List Source.Field} {frozen ordered : Bool} {base : Option String}
    {reject : Option Source.Reject} (hP : Invariant settings P) (h : P m)
    (hdeclare : m.dataclass scope name fields frozen ordered base reject = .ok (m', place)) :
    P m' := by
  obtain ⟨found, -, hdeclare⟩ := bind_eq_ok.mp hdeclare
  obtain ⟨own, -, hdeclare⟩ := bind_eq_ok.mp hdeclare
  obtain ⟨⟨⟩, -, hdeclare⟩ := bind_eq_ok.mp hdeclare
  obtain ⟨⟨⟩, -, hdeclare⟩ := bind_eq_ok.mp hdeclare
  obtain ⟨⟨⟩, -, hdeclare⟩ := bind_eq_ok.mp hdeclare
  obtain ⟨rejection, -, hdeclare⟩ := bind_eq_ok.mp hdeclare
  cases hdeclare
  exact hP.addClass h ⟨rfl, rfl, rfl, rfl, rfl⟩ rfl

theorem namedTuple {fields : List Source.Field} (hP : Invariant settings P) (h : P m)
    (hdeclare : m.namedTuple scope name fields = .ok (m', place)) : P m' := by
  obtain ⟨own, -, hdeclare⟩ := bind_eq_ok.mp hdeclare
  obtain ⟨⟨⟩, -, hdeclare⟩ := bind_eq_ok.mp hdeclare
  cases hdeclare
  exact hP.addClass h ⟨rfl, rfl, rfl, rfl, rfl⟩ rfl

theorem enumeration {numeric : Bool} {members : List (String × Source.Expr) ⊕ Nat}
    (hP : Invariant settings P) (h : P m)
    (hdeclare : m.enumeration scope name numeric members = .ok (m', place)) : P m' := by
  have hclass : ∀ {ms : List Member} {e : ClassEntry}, ms.Pairwise Member.Differs →
      e.form = .enum ms → e.ref.id = .declared m.classes.length → e.shape = none →
      e.facts.codec = none → e.facts.schema = none → e.exports = [] → P (m.addClass e).1 := by
    intro ms e hms hform hid hshape hcodec hschema hexports
    refine hP.addClass h ⟨hid, ?_, hshape, hcodec, hschema⟩ hexports
    rw [hform]
    exact hms.imp fun hdiffer => hdiffer.beq_eq_false
  cases members with
  | inl members =>
    obtain ⟨values, -, hdeclare⟩ := bind_eq_ok.mp hdeclare
    obtain ⟨⟨⟩, hnames, hdeclare⟩ := bind_eq_ok.mp hdeclare
    cases hdeclare
    exact hclass (differs_distinctMembers (nodup_of_checkNames hnames).1) rfl rfl rfl rfl rfl rfl
  | inr count =>
    cases hdeclare
    exact hclass differs_numberedMembers rfl rfl rfl rfl rfl rfl

theorem sumClass {body : Names} (hP : Invariant settings P) (h : P m) :
    P (m.sumClass name body).1 := by
  refine hP.addClass h ⟨rfl, fun a ha b hb hid => ?_, rfl, rfl, rfl⟩ rfl
  have hdescribed := hP.described h
  obtain ⟨i, e, he, hea⟩ := mem_variants ha
  obtain ⟨j, e', he', heb⟩ := mem_variants hb
  -- a variant carries the place at which its class was declared
  have hia : a.target.cls.ref.id = .declared i := by
    have hform := (hdescribed i e he).form
    rw [hea] at hform
    exact Eq.trans hform (hdescribed i e he).id
  have hjb : b.target.cls.ref.id = .declared j := by
    have hform := (hdescribed j e' he').form
    rw [heb] at hform
    exact Eq.trans hform (hdescribed j e' he').id
  rw [hia, hjb, ClassId.declared.injEq] at hid
  subst hid
  obtain rfl := Option.some.inj (he.symm.trans he')
  rw [hea] at heb
  exact ClassForm.record.inj heb

theorem plainClass (hP : Invariant settings P) (h : P m) : P (m.plainClass name).1 :=
  hP.addClass h ⟨rfl, trivial, rfl, rfl, rfl⟩ rfl

theorem function {params : List (String × Option Source.TypeExpr)}
    {returns : Option Source.TypeExpr} {body : List Source.Stmt} (hP : Invariant settings P) (h : P m)
    (hdeclare : m.function scope name params returns body = .ok (m', place)) : P m' := by
  obtain ⟨params, -, hdeclare⟩ := bind_eq_ok.mp hdeclare
  obtain ⟨returns, -, hdeclare⟩ := bind_eq_ok.mp hdeclare
  cases hdeclare
  exact hP.addFunction h rfl

/-! ## Declarations -/

theorem bindHere (hP : Invariant settings P) (h : P m) (atTop : Bool) (name : String)
    (b : Binding) : P (bindHere atTop name m b) := by
  cases atTop with
  | true => exact hP.names _ h
  | false => exact h

theorem decorated {atTop : Bool} {d : Decorated} {decorators : List Source.Decorator} {b : Binding}
    (hP : Invariant settings P) (h : P m)
    (hdecorate : Module.decorated settings (Module.bindHere atTop name) m d decorators = .ok (m', b)) :
    P m' := by
  obtain ⟨⟨m1, d1⟩, hm, hpair⟩ := bind_eq_ok.mp hdecorate
  cases hpair
  exact hP.bindHere (hP.decorateAll (hP.bindHere h _ _ _) hm) _ _ _

/-- A class or function that is added and then decorated. -/
theorem added {made : Except Fault (Module × Nat)} {thing : Nat → Decorated} {atTop : Bool}
    {decorators : List Source.Decorator} {names : Names} (hP : Invariant settings P)
    (hmade : ∀ {m : Module} {place : Nat}, made = .ok (m, place) → P m)
    (h : (do
      let (m, place) ← made
      let (m, b) ← Module.decorated settings (Module.bindHere atTop name) m (thing place) decorators
      pure (m, [(name, b)])) = .ok (m', names)) : P m' := by
  obtain ⟨⟨m1, place⟩, hm, h⟩ := bind_eq_ok.mp h
  obtain ⟨⟨m2, b⟩, hdecorate, hpair⟩ := bind_eq_ok.mp h
  cases hpair
  exact hP.decorated (hmade hm) hdecorate

mutual

/-- **A declaration keeps an invariant.** By induction over declarations, which can have others in them.
A class has its place in the module before it is decorated, which the induction follows. -/
theorem declare (hP : Invariant settings P) : ∀ {decl : Source.Decl} {path : String}
    {inner names : Names} {m m' : Module}, P m →
      Module.declare settings path inner m decl = .ok (m', names) → P m'
  | .dataclass .., path, inner, names, m, m', h, hdeclare =>
    hP.added (fun hm => hP.dataclass h hm) hdeclare
  | .namedTuple .., path, inner, names, m, m', h, hdeclare =>
    hP.added (fun hm => hP.namedTuple h hm) hdeclare
  | .enum .., path, inner, names, m, m', h, hdeclare =>
    hP.added (fun hm => hP.enumeration h hm) hdeclare
  | .function .., path, inner, names, m, m', h, hdeclare =>
    hP.added (fun hm => hP.function h hm) hdeclare
  | .sum _ body _, path, inner, names, m, m', h, hdeclare => by
    obtain ⟨⟨m1, bound⟩, hbody, hdeclare⟩ := bind_eq_ok.mp hdeclare
    obtain ⟨⟨m2, b⟩, hdecorate, hpair⟩ := bind_eq_ok.mp hdeclare
    cases hpair
    exact hP.decorated (hP.sumClass (declareBody hP h hbody)) hdecorate
  | .plain .., path, inner, names, m, m', h, hdeclare => by
    obtain ⟨⟨m1, b⟩, hdecorate, hpair⟩ := bind_eq_ok.mp hdeclare
    cases hpair
    exact hP.decorated (hP.plainClass h) hdecorate
  | .const .., path, inner, names, m, m', h, hdeclare => by
    obtain ⟨v, -, hpair⟩ := bind_eq_ok.mp hdeclare
    cases hpair
    exact hP.bindHere h _ _ _
  | .alias name of count, path, inner, names, m, m', h, hdeclare => by
    rw [Module.declare] at hdeclare
    cases hlookup : m.lookupIn inner of with
    | none =>
      rw [hlookup] at hdeclare
      cases hdeclare
    | some b =>
      rw [hlookup] at hdeclare
      cases hdeclare
      split
      · exact hP.names _ h
      · exact h

theorem declareBody (hP : Invariant settings P) : ∀ {decls : List Source.Decl} {path : String}
    {outer bound names : Names} {m m' : Module}, P m →
      Module.declareBody settings path outer bound m decls = .ok (m', names) → P m'
  | [], path, outer, bound, names, m, m', h, hdeclare => by
    cases hdeclare
    exact h
  | decl :: rest, path, outer, bound, names, m, m', h, hdeclare => by
    obtain ⟨⟨m1, found⟩, hm, hrest⟩ := bind_eq_ok.mp hdeclare
    exact declareBody hP (declare hP h hm) hrest

end

theorem declareAll (hP : Invariant settings P) : ∀ {decls : List Source.Decl} {m : Module}, P m →
    Module.declareAll settings m decls = .ok m' → P m'
  | [], m, h, hdeclare => by
    cases hdeclare
    exact h
  | decl :: rest, m, h, hdeclare => by
    obtain ⟨⟨m1, names⟩, hm, hrest⟩ := bind_eq_ok.mp hdeclare
    exact declareAll hP (hP.declare h hm) hrest

/-- **What holds of the empty module and is kept holds of every module that is declared.** -/
theorem ofDecls {decls : List Source.Decl} {chars : Text.CharNames} (hP : Invariant settings P)
    (hempty : P { chars }) (hdeclare : Module.ofDecls settings decls chars = .ok m) : P m :=
  hP.declareAll hempty hdeclare

end Invariant

/-- **Every module that is declared is described.** -/
theorem Described.ofDecls {settings : LoadedSettings} {decls : List Source.Decl}
    {chars : Text.CharNames} {m : Module}
    (hdeclare : Module.ofDecls settings decls chars = .ok m) : m.Described := by
  refine (invariant settings).ofDecls (fun place e he => ?_) hdeclare
  have he : ([] : List ClassEntry)[place]? = some e := he
  rw [List.getElem?_nil] at he
  cases he

end Module

end ContractKit
