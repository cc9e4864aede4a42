import ContractKit.Codec.OfType
import ContractKit.Proofs.Fault.Confined

/-!
# `Proofs/Codec/Refused.lean`: types without a codec

A type that has no codec is refused, and being a type without one is all that it is refused for. So what
looks for the codec of a type is confined to every class of faults that the refusals of types are in.
-/

set_option autoImplicit false

namespace ContractKit.Codec

variable {P : Fault → Prop}

theorem confined_ofClass (hP : ∀ issue, P (.typeIssue issue)) (classes : Classes) (ref : ClassRef) :
    Confined P (ofClass classes ref) := by
  unfold ofClass
  split
  · exact .ok _
  · exact Confined.ite (.ok _) (.error (hP _))

theorem confined_ensureHashable (hP : ∀ issue, P (.typeIssue issue)) (classes : Classes) (t : Ty)
    (shown : String) : Confined P (ensureHashable classes t shown) :=
  Confined.ite (.ok _) (.error (hP _))

theorem confined_ofBare {α : Type} (hP : ∀ issue, P (.typeIssue issue)) (container : Container) :
    Confined P (ofBare container : Except Fault α) := by
  cases container with
  | _ => exact .error (hP _)

/-- **A type that has no codec is refused, and a type is all that is refused.** No look-up in the
classes fails otherwise, so what is said of a field is about its type. -/
theorem confined_ofType (hP : ∀ issue, P (.typeIssue issue)) (classes : Classes) (t : Ty) :
    Confined P (ofType classes t) := by
  have hhashable := confined_ensureHashable hP classes
  suffices h : (∀ t, Confined P (ofType classes t)) ∧
      ∀ ts, Confined P (ofTypes classes ts) from h.1 t
  -- along the recursion of `ofType`, a case for each of its branches in their order
  apply ofType.mutual_induct
  · exact fun base metadata ih => ih
  · exact fun i => .ok _
  · exact .ok _
  · exact .ok _
  · exact .ok _
  · exact .ok _
  · exact confined_ofClass hP classes
  · exact confined_ofBare hP
  · exact fun item ih => .bind ih fun _ _ => .ok _
  · exact fun member ih => .bind (hhashable _ _) fun _ _ => .bind ih fun _ _ => .ok _
  · exact fun member ih => .bind (hhashable _ _) fun _ _ => .bind ih fun _ _ => .ok _
  · exact fun key value ihk ihv => .bind (hhashable _ _) fun _ _ =>
      .bind ihk fun _ _ => .bind ihv fun _ _ => .ok _
  · exact fun item ih => .bind ih fun _ _ => .ok _
  · intro args hne hlast
    rw [ofType]
    · rw [hlast]
      exact .error (hP _)
    · exact hne
  · intro args hne hlast ih
    rw [ofType]
    · split
      · exact .error (hP _)
      · exact .bind ih fun _ _ => .ok _
    · exact hne
  · exact fun spelling t ih => .bind ih fun _ _ => .ok _
  · intro spelling t hne ih
    rw [ofType]
    · exact .bind ih fun _ _ => .ok _
    · exact hne
  · intro spelling members h1 h2
    rw [ofType]
    · exact .error (hP _)
    · exact h1
    · exact h2
  · exact fun name => .error (hP _)
  · exact .error (hP _)
  · intro t _ _ _ _ _ _ _ _ _ _ _ _ _ _ _ _ _ _ _
    rw [ofType]
    · exact .error (hP _)
    all_goals assumption
  · exact .ok _
  · exact fun t ts iht ihts => .bind iht fun _ _ => .bind ihts fun _ _ => .ok _

theorem confined_widthOf (hP : ∀ issue, P (.typeIssue issue)) (width : Int) :
    Confined P (widthOf width) := by
  unfold widthOf
  split
  · exact .ok _
  · exact .error (hP _)

theorem confined_check (hP : ∀ issue, P (.typeIssue issue)) (kind : ContainerKind) (t : Ty) :
    Confined P (kind.check t) :=
  Confined.ite (.ok _) (.error (hP _))

/-- **So is one whose prefix has a width of its own.** -/
theorem confined_prefixed (hP : ∀ issue, P (.typeIssue issue)) (classes : Classes)
    (kind : ContainerKind) (width : Int) (order : OrderPolicy) (t : Ty) :
    Confined P (Codec.prefixed classes kind width order t) := by
  have hwidth := confined_widthOf hP width
  have hhashable := confined_ensureHashable hP classes
  have htype := confined_ofType hP classes
  refine .bind (confined_check hP kind t) fun _ _ => ?_
  split
  · exact .bind hwidth fun _ _ => .ok _
  · exact .bind hwidth fun _ _ => .ok _
  · exact confined_ofBare hP _
  · exact .bind (htype _) fun _ _ => .bind hwidth fun _ _ => .ok _
  · exact .bind (htype _) fun _ _ => .bind hwidth fun _ _ => .ok _
  · exact .bind (hhashable _ _) fun _ _ => .bind (htype _) fun _ _ => .bind hwidth fun _ _ => .ok _
  · exact .bind (hhashable _ _) fun _ _ => .bind (htype _) fun _ _ => .bind hwidth fun _ _ => .ok _
  · exact .bind (hhashable _ _) fun _ _ => .bind (htype _) fun _ _ => .bind (htype _) fun _ _ =>
      .bind hwidth fun _ _ => .ok _
  · exact .error (hP _)

end ContractKit.Codec
