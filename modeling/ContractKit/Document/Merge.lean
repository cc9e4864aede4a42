import ContractKit.Document.Basic

/-!
# `Document/Merge.lean`: laying one document over another

Two objects are merged part by part; where one of two documents is no object, the upper one hides the
lower. Parts of the lower object keep their places.
-/

set_option autoImplicit false

namespace ContractKit.Document

mutual

/-- A document laid over another one. Two objects are laid over each other part by part, however deep;
in all other cases the upper one is all that is left. -/
def «over» (lower : Document) : Document → Document
  | object upper =>
    match lower with
    | object parts => object (partsOver parts upper)
    | _ => object upper
  | upper => upper

/-- The parts of an object laid over those of another one. Names of the lower object keep their places,
and new names come behind them. -/
def partsOver (lower : List (String × Document)) :
    List (String × Document) → List (String × Document)
  | [] => lower
  | (name, d) :: upper =>
    let value := match lower.lookup name with
      | some below => «over» below d
      | none => d
    partsOver (put lower name value) upper

end

end ContractKit.Document
