/-
# SafePlan.Unsupported — why something has no safe plan

Each cause names the place: the variables or the relation at fault, and the
part of the query or formula in which they are.
-/
import SafePlan.Formula
import SafePlan.Query

set_option autoImplicit false

namespace SafePlan

inductive Unsupported where
  | notHierarchical (left right shared : Name)
  | noRootVariable (vars : List Name) (atoms : List Atom)
  | sharedRelation (relation : Name) (f : Formula)
  | notSeparator (x : Name) (f : Formula)
  | freeVariable (x : Name) (f : Formula)
  deriving DecidableEq, Repr

namespace Unsupported

def message : Unsupported → String
  | .notHierarchical left right shared =>
    "query is not hierarchical: `" ++ left ++ "` and `" ++ right ++ "` share `" ++ shared ++
      "` but neither variable's atoms contain the other's"
  | .noRootVariable vars atoms =>
    "no variable occurs in every atom of `" ++ Query.displayOf vars atoms ++ "`"
  | .sharedRelation relation f =>
    "both sides of `" ++ f.display ++ "` read `" ++ relation ++ "`, so they are not independent"
  | .notSeparator x f => "`" ++ x ++ "` is not a separator variable of `" ++ f.display ++ "`"
  | .freeVariable x f => "variable `" ++ x ++ "` is free in `" ++ f.display ++ "`"

end Unsupported

end SafePlan
