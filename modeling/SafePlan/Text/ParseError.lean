/-
# SafePlan.Text.ParseError — why a text is not read

Offsets count bytes of UTF-8 from the beginning of the whole text.
-/
import SafePlan.Query
import SafePlan.Text.Blank
import SafePlan.Text.Reader

set_option autoImplicit false

namespace SafePlan

/-- What a reader looked for when it stopped. -/
inductive Expected where
  | variables
  | atoms
  | formula
  deriving DecidableEq, Repr

def Expected.message : Expected → String
  | .variables => "expected variable names separated by `,` before `|`"
  | .atoms => "expected atoms `Name(term, ...)` separated by `,`"
  | .formula => "expected a formula"

inductive ParseError where
  | empty
  | unbalancedParens (offset : Nat)
  | multipleSeparators (offset : Nat)
  | unexpected (offset : Nat) (expected : Expected)
  | invalid (fault : QueryError)
  deriving DecidableEq, Repr

namespace ParseError

def message : ParseError → String
  | .empty => "query is empty"
  | .unbalancedParens offset => "unbalanced parentheses at offset " ++ toString offset
  | .multipleSeparators offset =>
    "`|` may appear at most once (another one at offset " ++ toString offset ++ ")"
  | .unexpected offset expected =>
    "parse error at offset " ++ toString offset ++ ": " ++ expected.message
  | .invalid fault => "invalid query: " ++ fault.message

end ParseError

namespace Text

/-- What every text has to pass before it is read: some character that is not
blank, and parentheses that pair up. -/
def screen (text : Chars) : Except ParseError Unit :=
  if text.all isBlank then .error .empty
  else match unbalanced? [] text with
    | some place => .error (.unbalancedParens (offset text place))
    | none => .ok ()

end Text

end SafePlan
