/-
# SafePlan.Plan — safe plans and their values

A plan is a tree of facts combined by rules of independence: an event is the
conjunction or disjunction of independent parts, the opposite of one part, or
a leaf: distinct facts that all have to be present, or a single one. The plan is
drawn from a query or formula and a domain alone; only its value reads
probabilities. So a plan is safe or does not exist before any number is looked at.

Each node keeps the subject it is a plan for, and `steps` lists the nodes with
their values, children before their parent.
-/
import SafePlan.Arithmetic
import SafePlan.Atom

set_option autoImplicit false

namespace SafePlan

/-- The rule by which a node's value comes from its children's. -/
inductive Rule where
  | ground (facts : Nat)
  | split (groups : Nat)
  | eliminate (x : Name) (branches : Nat)
  | negate
  | disjoin
  | universal (x : Name) (branches : Nat)
  deriving DecidableEq, Repr

def Rule.display : Rule → String
  | .ground facts => "ground(" ++ toString facts ++ ")"
  | .split groups => "split(" ++ toString groups ++ ")"
  | .eliminate x branches => "eliminate(" ++ x ++ ", " ++ toString branches ++ ")"
  | .negate => "negate"
  | .disjoin => "disjoin"
  | .universal x branches => "universal(" ++ x ++ ", " ++ toString branches ++ ")"

/-- The ways to combine independent parts. A quantifier's parts are its body at
each constant of the domain. -/
inductive Combination where
  | split
  | disjoin
  | eliminate (x : Name)
  | universal (x : Name)
  deriving DecidableEq, Repr

namespace Combination

/-- The rule of a combination of so many parts. -/
def rule (parts : Nat) : Combination → Rule
  | .split => .split parts
  | .disjoin => .disjoin
  | .eliminate x => .eliminate x parts
  | .universal x => .universal x parts

/-- The probability of the whole from those of the parts. -/
def apply {P : Type} [Arithmetic P] : Combination → List P → P
  | .split => Arithmetic.all
  | .disjoin => Arithmetic.any
  | .eliminate _ => Arithmetic.any
  | .universal _ => Arithmetic.all

end Combination

inductive Plan (S : Type) where
  | ground (subject : S) (facts : List Fact)
  /-- The fact's own probability, which no product is made of. -/
  | lookup (subject : S) (fact : Fact)
  | negate (subject : S) (part : Plan S)
  | combine (combination : Combination) (subject : S) (parts : List (Plan S))

/-- One node of a plan: how deep it is, how its probability came about, what it
is the probability of. -/
structure TraceStep (P : Type) where
  depth : Nat
  rule : Rule
  formula : String
  probability : P

namespace Plan

variable {S P : Type}

def subject : Plan S → S
  | .ground subject _ => subject
  | .lookup subject _ => subject
  | .negate subject _ => subject
  | .combine _ subject _ => subject

def children : Plan S → List (Plan S)
  | .ground _ _ => []
  | .lookup _ _ => []
  | .negate _ part => [part]
  | .combine _ _ parts => parts

def rule : Plan S → Rule
  | .ground _ facts => .ground facts.length
  | .lookup _ _ => .ground 1
  | .negate _ _ => .negate
  | .combine combination _ parts => combination.rule parts.length

section Value

variable [Arithmetic P] (chance : Fact → P)

mutual

/-- The probability of a plan's event. -/
def value : Plan S → P
  | .ground _ facts => Arithmetic.all (facts.map chance)
  | .lookup _ fact => chance fact
  | .negate _ part => Arithmetic.complement (value part)
  | .combine combination _ parts => combination.apply (values parts)

def values : List (Plan S) → List P
  | [] => []
  | plan :: rest => value plan :: values rest

end

theorem values_eq_map (plans : List (Plan S)) : values chance plans = plans.map (value chance) := by
  induction plans with
  | nil => rfl
  | cons plan rest ih => rw [values, ih, List.map_cons]

variable (render : S → String)

def step (depth : Nat) (plan : Plan S) : TraceStep P :=
  ⟨depth, plan.rule, render plan.subject, plan.value chance⟩

mutual

/-- The nodes, children before their parent and in order. -/
def steps (depth : Nat) : Plan S → List (TraceStep P)
  | .ground subject facts => [step chance render depth (.ground subject facts)]
  | .lookup subject fact => [step chance render depth (.lookup subject fact)]
  | .negate subject part =>
    steps (depth + 1) part ++ [step chance render depth (.negate subject part)]
  | .combine combination subject parts =>
    stepsOfAll (depth + 1) parts ++
      [step chance render depth (.combine combination subject parts)]

def stepsOfAll (depth : Nat) : List (Plan S) → List (TraceStep P)
  | [] => []
  | plan :: rest => steps depth plan ++ stepsOfAll depth rest

end

/-- **A trace is post-order.** The steps are those of the children, one level
deeper, and then the plan's own. -/
theorem steps_eq (depth : Nat) (plan : Plan S) :
    steps chance render depth plan =
      plan.children.flatMap (steps chance render (depth + 1)) ++ [step chance render depth plan] := by
  have all : ∀ (depth : Nat) (plans : List (Plan S)),
      stepsOfAll chance render depth plans = plans.flatMap (steps chance render depth) := by
    intro depth plans
    induction plans with
    | nil => rfl
    | cons plan rest ih => rw [stepsOfAll, ih, List.flatMap_cons]
  cases plan with
  | ground subject facts => simp [steps, children]
  | lookup subject fact => simp [steps, children]
  | negate subject part => simp [steps, children]
  | combine combination subject parts => simp [steps, children, all]

end Value

end Plan

end SafePlan
