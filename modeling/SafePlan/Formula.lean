/-
# SafePlan.Formula — first-order formulas over atoms

Negation, the two connectives and the two quantifiers. A quantifier that binds
a name again hides the outer binding inside its body, and all the traversals
below keep to that: `freeVars`, `freePositions` and `substitute` stop at a
quantifier of the name they follow.
-/
import SafePlan.Atom

set_option autoImplicit false

namespace SafePlan

inductive Formula where
  /-- The empty conjunction. -/
  | truth
  | atom (a : Atom)
  | not (f : Formula)
  | and (f g : Formula)
  | or (f g : Formula)
  | exist (x : Name) (f : Formula)
  | forAll (x : Name) (f : Formula)
  deriving DecidableEq, Repr

namespace Formula

/-- The conjunction of the parts, nested to the left; `truth` when there are none. -/
def conjunction : List Formula → Formula
  | [] => .truth
  | f :: rest => rest.foldl .and f

/-- The atoms from left to right. -/
def atoms : Formula → List Atom
  | .truth => []
  | .atom a => [a]
  | .not f => f.atoms
  | .and f g => f.atoms ++ g.atoms
  | .or f g => f.atoms ++ g.atoms
  | .exist _ f => f.atoms
  | .forAll _ f => f.atoms

def relations (f : Formula) : NameSet := NameSet.ofList (f.atoms.map Atom.relation)

/-- The free occurrences of variables, from left to right. -/
def freeOccurrences : Formula → List Name
  | .truth => []
  | .atom a => a.vars
  | .not f => f.freeOccurrences
  | .and f g => f.freeOccurrences ++ g.freeOccurrences
  | .or f g => f.freeOccurrences ++ g.freeOccurrences
  | .exist x f => f.freeOccurrences.filter (· ≠ x)
  | .forAll x f => f.freeOccurrences.filter (· ≠ x)

def freeVars (f : Formula) : NameSet := NameSet.ofList f.freeOccurrences

def isClosed (f : Formula) : Bool := f.freeOccurrences.isEmpty

/-- Every atom with the positions at which the variable stands free in it; none
where a quantifier of the same name stands above the atom. -/
def freePositions (x : Name) : Formula → List (Atom × List Nat)
  | .truth => []
  | .atom a => [(a, a.positionsOf x)]
  | .not f => f.freePositions x
  | .and f g => f.freePositions x ++ g.freePositions x
  | .or f g => f.freePositions x ++ g.freePositions x
  | .exist y f => if y = x then f.atoms.map (·, []) else f.freePositions x
  | .forAll y f => if y = x then f.atoms.map (·, []) else f.freePositions x

/-- Put a constant in the place of the free occurrences of a variable. -/
def substitute (x c : Name) : Formula → Formula
  | .truth => .truth
  | .atom a => .atom (a.substitute x c)
  | .not f => .not (f.substitute x c)
  | .and f g => .and (f.substitute x c) (g.substitute x c)
  | .or f g => .or (f.substitute x c) (g.substitute x c)
  | .exist y f => if y = x then .exist y f else .exist y (f.substitute x c)
  | .forAll y f => if y = x then .forAll y f else .forAll y (f.substitute x c)

/-- The logical form. -/
def display : Formula → String
  | .truth => "true"
  | .atom a => a.display
  | .not f => "¬" ++ f.display
  | .and f g => "(" ++ f.display ++ " ∧ " ++ g.display ++ ")"
  | .or f g => "(" ++ f.display ++ " ∨ " ++ g.display ++ ")"
  | .exist x f => "∃" ++ x ++ " " ++ f.display
  | .forAll x f => "∀" ++ x ++ " " ++ f.display

/-- The number of connectives, quantifiers and leaves. -/
def size : Formula → Nat
  | .truth => 1
  | .atom _ => 1
  | .not f => f.size + 1
  | .and f g => f.size + g.size + 1
  | .or f g => f.size + g.size + 1
  | .exist _ f => f.size + 1
  | .forAll _ f => f.size + 1

/-- Substitution changes terms only. -/
@[simp] theorem size_substitute (x c : Name) (f : Formula) :
    (f.substitute x c).size = f.size := by
  fun_induction substitute x c f <;> simp_all [size]

end Formula

end SafePlan
