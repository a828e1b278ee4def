/-
# SafePlan.Text.FactMessage — complaints about facts in words
-/
import SafePlan.Store
import SafePlan.Text.Decimal

set_option autoImplicit false

namespace SafePlan

def FactError.message : FactError Float → String
  | .emptyRelation => "relation name must not be empty"
  | .probabilityOutOfRange relation p =>
    "probability " ++ Text.decimal p ++ " for `" ++ relation ++ "` is not a number in [0, 1]"
  | .nonGroundElement relation position x =>
    "element " ++ toString position ++ " of the `" ++ relation ++ "` tuple is the variable `" ++
      x ++ "`, expected a constant"
  | .arityMismatch relation expected found =>
    "`" ++ relation ++ "` has arity " ++ toString expected ++ " but the tuple has " ++
      toString found ++ " elements"

end SafePlan
