/-
# SafePlan.Atom — terms, atoms and facts

A `Term` is a constant or a variable; an `Atom` applies a relation to terms; a
`Fact` applies a relation to constants only. An atom is ground when no variable
is left in it, and then it names exactly one fact. Substituting a constant for
a variable is the one way in which atoms change.
-/
import SafePlan.Name

set_option autoImplicit false

namespace SafePlan

inductive Term where
  | const (name : Name)
  | var (name : Name)
  deriving DecidableEq, Repr

namespace Term

def name : Term → Name
  | .const name => name
  | .var name => name

def isGround : Term → Bool
  | .const _ => true
  | .var _ => false

def var? : Term → Option Name
  | .const _ => none
  | .var name => some name

/-- Put a constant in the place of a variable. -/
def substitute (x c : Name) : Term → Term
  | .const name => .const name
  | .var name => if name = x then .const c else .var name

end Term

/-- A relation applied to constants: what is stored, and what a ground atom
asks for. -/
structure Fact where
  relation : Name
  tuple : List Name
  deriving DecidableEq, Repr

structure Atom where
  relation : Name
  terms : List Term
  deriving DecidableEq, Repr

namespace Atom

def arity (a : Atom) : Nat := a.terms.length

/-- The variables in the order of their positions, repeats included. -/
def vars (a : Atom) : List Name := a.terms.filterMap Term.var?

def mentions (a : Atom) (x : Name) : Bool := a.vars.contains x

def isGround (a : Atom) : Bool := a.terms.all Term.isGround

/-- The fact that a ground atom names: its relation at the names of its terms. -/
def fact (a : Atom) : Fact := ⟨a.relation, a.terms.map Term.name⟩

/-- The constants of a ground atom. -/
def tuple? (a : Atom) : Option (List Name) :=
  if a.isGround then some a.fact.tuple else none

def substitute (x c : Name) (a : Atom) : Atom :=
  ⟨a.relation, a.terms.map (Term.substitute x c)⟩

def substituteAll (x c : Name) (atoms : List Atom) : List Atom := atoms.map (substitute x c)

/-- The positions at which a variable stands, counted from zero. -/
def positionsOf (x : Name) (a : Atom) : List Nat :=
  a.terms.zipIdx.filterMap fun (term, position) =>
    if term.var? = some x then some position else none

def display (a : Atom) : String :=
  a.relation ++ "(" ++ ", ".intercalate (a.terms.map Term.name) ++ ")"

/-! ## Substitution and variables -/

@[simp] theorem relation_substitute (x c : Name) (a : Atom) :
    (a.substitute x c).relation = a.relation := rfl

@[simp] theorem arity_substitute (x c : Name) (a : Atom) :
    (a.substitute x c).arity = a.arity := by
  simp [arity, substitute]

/-- Substitution removes the variable and touches no other. -/
theorem vars_substitute (x c : Name) (a : Atom) :
    (a.substitute x c).vars = a.vars.filter (· ≠ x) := by
  cases a with
  | mk relation terms =>
    simp only [vars, substitute]
    induction terms with
    | nil => rfl
    | cons term rest ih =>
      cases term with
      | const name =>
        simpa [Term.substitute, List.filterMap_cons, Term.var?] using ih
      | var name =>
        by_cases here : name = x <;>
          simpa [Term.substitute, List.filterMap_cons, Term.var?, here] using ih

theorem isGround_iff (a : Atom) : a.isGround = true ↔ a.vars = [] := by
  cases a with
  | mk relation terms =>
    simp only [vars, isGround]
    induction terms with
    | nil => simp
    | cons term rest ih => cases term <;> simp [Term.isGround, Term.var?, ih]

@[simp] theorem mentions_iff {a : Atom} {x : Name} : a.mentions x = true ↔ x ∈ a.vars := by
  simp [mentions]

end Atom

end SafePlan
