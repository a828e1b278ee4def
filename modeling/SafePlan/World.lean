/-
# SafePlan.World — worlds, and what is true in them

A world is a set of facts. A query holds in it when some assignment of
constants from the domain to its variables makes every atom one of the facts; a
formula is true as usual, its quantifiers ranging over the domain and the
innermost binding of a name counting. The domain may be empty: then no
assignment reaches a variable that occurs, and every universal formula is true.

`holds_substitute` is why plans may branch by substitution: a constant put in
the place of a variable means the same as an assignment of it.
-/
import SafePlan.Formula
import SafePlan.Query

set_option autoImplicit false

namespace SafePlan

abbrev World := Fact → Prop

/-- Constants for variables. -/
abbrev Assignment := Name → Name

/-- The assignment with another constant for one variable. -/
def Assignment.set (σ : Assignment) (x c : Name) : Assignment :=
  fun y => if y = x then c else σ y

def Term.nameAt (σ : Assignment) : Term → Name
  | .const name => name
  | .var name => σ name

/-- The fact that an atom names under an assignment. -/
def Atom.factAt (σ : Assignment) (a : Atom) : Fact :=
  ⟨a.relation, a.terms.map (Term.nameAt σ)⟩

/-- Some choice of constants makes every atom a fact. -/
def Query.Holds (domain : List Name) (world : World) (q : Query) : Prop :=
  ∃ σ : Assignment, (∀ x ∈ q.occurringVars, σ x ∈ domain) ∧ ∀ a ∈ q.atoms, world (a.factAt σ)

def Formula.Holds (domain : List Name) (world : World) (σ : Assignment) : Formula → Prop
  | .truth => True
  | .atom a => world (a.factAt σ)
  | .not f => ¬ f.Holds domain world σ
  | .and f g => f.Holds domain world σ ∧ g.Holds domain world σ
  | .or f g => f.Holds domain world σ ∨ g.Holds domain world σ
  | .exist x f => ∃ c ∈ domain, f.Holds domain world (σ.set x c)
  | .forAll x f => ∀ c ∈ domain, f.Holds domain world (σ.set x c)

/-! ## Substitution -/

theorem Assignment.set_set (σ : Assignment) (x c d : Name) : (σ.set x c).set x d = σ.set x d := by
  funext y
  simp only [Assignment.set]
  split <;> rfl

theorem Assignment.set_comm (σ : Assignment) {x y : Name} (different : x ≠ y) (c d : Name) :
    (σ.set x c).set y d = (σ.set y d).set x c := by
  funext z
  simp only [Assignment.set]
  split <;> split <;> simp_all

theorem Term.nameAt_substitute (σ : Assignment) (x c : Name) (t : Term) :
    (t.substitute x c).nameAt σ = t.nameAt (σ.set x c) := by
  cases t with
  | const name => rfl
  | var name => by_cases here : name = x <;> simp [substitute, nameAt, Assignment.set, here]

theorem Atom.factAt_substitute (σ : Assignment) (x c : Name) (a : Atom) :
    (a.substitute x c).factAt σ = a.factAt (σ.set x c) := by
  simp [Atom.factAt, Atom.substitute, Function.comp_def, Term.nameAt_substitute]

/-- A ground atom names its fact under every assignment. -/
theorem Atom.factAt_of_isGround (σ : Assignment) {a : Atom} (ground : a.isGround = true) :
    a.factAt σ = a.fact := by
  cases a with
  | mk relation terms =>
    simp only [Atom.factAt, Atom.fact, Fact.mk.injEq, true_and]
    refine List.map_congr_left fun t listed => ?_
    have := List.all_eq_true.1 ground t listed
    cases t with
    | const name => rfl
    | var name => simp [Term.isGround] at this

/-- **Substituting a constant means assigning it.** -/
theorem Formula.holds_substitute (domain : List Name) (world : World) (σ : Assignment)
    (x c : Name) (f : Formula) :
    (f.substitute x c).Holds domain world σ ↔ f.Holds domain world (σ.set x c) := by
  induction f generalizing σ with
  | truth => rfl
  | atom a => rw [substitute, Holds, Holds, Atom.factAt_substitute]
  | not f ih => rw [substitute, Holds, Holds, ih]
  | and f g ihf ihg => rw [substitute, Holds, Holds, ihf, ihg]
  | or f g ihf ihg => rw [substitute, Holds, Holds, ihf, ihg]
  | exist y f ih =>
    rw [substitute]
    split <;> rename_i same
    · subst same
      simp only [Holds, Assignment.set_set]
    · simp only [Holds, ih, σ.set_comm same]
  | forAll y f ih =>
    rw [substitute]
    split <;> rename_i same
    · subst same
      simp only [Holds, Assignment.set_set]
    · simp only [Holds, ih, σ.set_comm same]

end SafePlan
