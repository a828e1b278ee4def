/-
# SafePlan.Evaluation — probabilities of queries and formulas in a store

To evaluate is to draw the plan over the store's active domain and to take its
value at the store's probabilities. The steps of the plan are listed with the
probability when a trace is asked for.
-/
import SafePlan.FormulaPlan
import SafePlan.QueryFormula
import SafePlan.QueryPlan
import SafePlan.Store

set_option autoImplicit false

namespace SafePlan

/-- What a caller asks for beside the probability. `parallel` permits steps of
siblings in any order; here they always come in theirs. -/
structure Options where
  trace : Bool := false
  parallel : Bool := false
  deriving DecidableEq, Repr

structure Evaluation (P : Type) where
  probability : P
  /-- Empty unless asked for. -/
  trace : List (TraceStep P)

section

variable {P : Type} [Arithmetic P]

/-- A plan's value in a store, with its steps if asked for. -/
def Plan.evaluate {S : Type} (render : S → String) (s : Store P) (options : Options)
    (plan : Plan S) : Evaluation P where
  probability := plan.value s.chance
  trace := if options.trace then plan.steps s.chance render 0 else []

namespace Query

def evaluate (q : Query) (s : Store P) (options : Options) : Except Unsupported (Evaluation P) := do
  let plan ← q.plan s.domain
  return plan.evaluate q.displayPart s options

/-- The probability that the query holds. -/
def probability (q : Query) (s : Store P) : Except Unsupported P := do
  let plan ← q.plan s.domain
  return plan.value s.chance

end Query

namespace Formula

def evaluate (f : Formula) (s : Store P) (options : Options) :
    Except Unsupported (Evaluation P) := do
  let plan ← f.plan s.domain
  return plan.evaluate display s options

/-- The probability that the formula is true. -/
def probability (f : Formula) (s : Store P) : Except Unsupported P := do
  let plan ← f.plan s.domain
  return plan.value s.chance

end Formula

end

end SafePlan
