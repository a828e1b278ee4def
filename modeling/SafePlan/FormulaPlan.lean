/-
# SafePlan.FormulaPlan — the plan of a closed formula

A ground atom is looked up. Negation takes the opposite. The sides of a
connective are independent when they read no relation in common. A quantifier's
branches are independent when its variable separates the body: it occurs free in
every atom, and in the atoms of one relation at the same positions, so that
different constants make different facts of them. Anything else has no safe plan
here; the first such place, outermost and leftmost, is reported.
-/
import SafePlan.Plan
import SafePlan.Unsupported

set_option autoImplicit false

namespace SafePlan

namespace Formula

/-- Whether the variable is free in every atom, at equal positions in atoms of
one relation. -/
def isSeparator (x : Name) (f : Formula) : Bool :=
  let places := f.freePositions x
  places.all fun (a, positions) =>
    !positions.isEmpty &&
      places.all fun (b, others) => a.relation != b.relation || positions == others

/-- The least relation that both sides read. -/
def sharedRelation? (f g : Formula) : Option Name :=
  g.relations.find? fun relation => f.relations.contains relation

/-- Why a formula's outermost step has no rule. -/
def fault? : Formula → Option Unsupported
  | .truth => none
  | .atom a => a.vars.head?.map fun x => .freeVariable x (.atom a)
  | .not _ => none
  | .and f g => (sharedRelation? f g).map fun relation => .sharedRelation relation (.and f g)
  | .or f g => (sharedRelation? f g).map fun relation => .sharedRelation relation (.or f g)
  | .exist x f => if f.isSeparator x then none else some (.notSeparator x (.exist x f))
  | .forAll x f => if f.isSeparator x then none else some (.notSeparator x (.forAll x f))

end Formula

namespace Plan

/-- The plan of a formula over a domain, when each step has a rule. -/
def ofFormula (domain : List Name) (f : Formula) : Except Unsupported (Plan Formula) :=
  match f.fault? with
  | some unsupported => .error unsupported
  | none =>
    match f with
    | .truth => .ok (.ground f [])
    | .atom a => .ok (.lookup f a.fact)
    | .not g => (ofFormula domain g).map (.negate f)
    | .and g h => do
      let left ← ofFormula domain g
      let right ← ofFormula domain h
      return .combine .split f [left, right]
    | .or g h => do
      let left ← ofFormula domain g
      let right ← ofFormula domain h
      return .combine .disjoin f [left, right]
    | .exist x g =>
      (domain.mapM fun c => ofFormula domain (g.substitute x c)).map (.combine (.eliminate x) f)
    | .forAll x g =>
      (domain.mapM fun c => ofFormula domain (g.substitute x c)).map (.combine (.universal x) f)
termination_by f.size
decreasing_by all_goals simp only [Formula.size, Formula.size_substitute]; omega

/-! ## One equation for each form -/

section Equations

variable {domain : List Name} {f g : Formula} {x : Name}

theorem ofFormula_of_fault {unsupported : Unsupported} (fault : f.fault? = some unsupported) :
    ofFormula domain f = .error unsupported := by
  rw [ofFormula.eq_def, fault]

theorem ofFormula_truth : ofFormula domain .truth = .ok (.ground .truth []) := by
  rw [ofFormula, Formula.fault?]

theorem ofFormula_atom {a : Atom} (fine : (Formula.atom a).fault? = none) :
    ofFormula domain (.atom a) = .ok (.lookup (.atom a) a.fact) := by
  rw [ofFormula, fine]

theorem ofFormula_not : ofFormula domain (.not f) = (ofFormula domain f).map (.negate (.not f)) := by
  rw [ofFormula, Formula.fault?]

theorem ofFormula_and (fine : (Formula.and f g).fault? = none) :
    ofFormula domain (.and f g) = do
      let left ← ofFormula domain f
      let right ← ofFormula domain g
      return .combine .split (.and f g) [left, right] := by
  rw [ofFormula, fine]

theorem ofFormula_or (fine : (Formula.or f g).fault? = none) :
    ofFormula domain (.or f g) = do
      let left ← ofFormula domain f
      let right ← ofFormula domain g
      return .combine .disjoin (.or f g) [left, right] := by
  rw [ofFormula, fine]

theorem ofFormula_exist (fine : (Formula.exist x f).fault? = none) :
    ofFormula domain (.exist x f) =
      (domain.mapM fun c => ofFormula domain (f.substitute x c)).map
        (.combine (.eliminate x) (.exist x f)) := by
  rw [ofFormula, fine]

theorem ofFormula_forAll (fine : (Formula.forAll x f).fault? = none) :
    ofFormula domain (.forAll x f) =
      (domain.mapM fun c => ofFormula domain (f.substitute x c)).map
        (.combine (.universal x) (.forAll x f)) := by
  rw [ofFormula, fine]

end Equations

end Plan

namespace Formula

/-- The plan of a closed formula over a domain. -/
def plan (domain : List Name) (f : Formula) : Except Unsupported (Plan Formula) :=
  match f.freeVars with
  | x :: _ => .error (.freeVariable x f)
  | [] => Plan.ofFormula domain f

end Formula

end SafePlan
