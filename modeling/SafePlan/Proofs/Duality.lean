/-
# SafePlan.Proofs.Duality — De Morgan's laws hold of evaluation

A disjunction is the opposite of a conjunction of opposites, and an existential
quantifier the opposite of a universal one. `Formula.deMorgan` writes a formula
without the two, by that rule and everywhere.

Planning has rules of its own for what is written away. They agree with the
rewriting on every count. The tests read relations and positions of variables, and
a rewritten formula has its atoms at the same places in the same scopes, also after
a constant is put in the place of a variable. And the value of a disjunction is
computed as the opposite of a product of opposites in the first place, so not even
rounding tells the two apart (`evaluate_deMorgan`).
-/
import SafePlan.Proofs.Renaming

set_option autoImplicit false

namespace SafePlan

namespace Formula

variable {f g : Formula} {x c : Name}

/-- The formula with negation, conjunction and universal quantifiers only. -/
def deMorgan : Formula → Formula
  | .truth => .truth
  | .atom a => .atom a
  | .not f => .not f.deMorgan
  | .and f g => .and f.deMorgan g.deMorgan
  | .or f g => .not (.and (.not f.deMorgan) (.not g.deMorgan))
  | .exist x f => .not (.forAll x (.not f.deMorgan))
  | .forAll x f => .forAll x f.deMorgan

/-- The node of the rewritten formula that is tested in the place of a formula's
own: the one below the negation in front, where there is one. -/
def dualNode : Formula → Formula
  | .or f g => .and (.not f.deMorgan) (.not g.deMorgan)
  | .exist x f => .forAll x (.not f.deMorgan)
  | f => f.deMorgan

/-! ## What rewriting keeps -/

@[simp] theorem atoms_deMorgan (f : Formula) : f.deMorgan.atoms = f.atoms := by
  induction f with
  | truth => rfl
  | atom a => rfl
  | not f ih | exist x f ih | forAll x f ih => exact ih
  | and f g ihf ihg | or f g ihf ihg => simp only [deMorgan, atoms, ihf, ihg]

@[simp] theorem freeOccurrences_deMorgan (f : Formula) :
    f.deMorgan.freeOccurrences = f.freeOccurrences := by
  induction f with
  | truth => rfl
  | atom a => rfl
  | not f ih => exact ih
  | and f g ihf ihg | or f g ihf ihg => simp only [deMorgan, freeOccurrences, ihf, ihg]
  | exist x f ih | forAll x f ih => simp only [deMorgan, freeOccurrences, ih]

@[simp] theorem freePositions_deMorgan (x : Name) (f : Formula) :
    f.deMorgan.freePositions x = f.freePositions x := by
  induction f with
  | truth => rfl
  | atom a => rfl
  | not f ih => exact ih
  | and f g ihf ihg | or f g ihf ihg => simp only [deMorgan, freePositions, ihf, ihg]
  | exist y f ih | forAll y f ih =>
    simp only [deMorgan, freePositions, atoms, atoms_deMorgan, ih]

/-- It does not matter whether a constant is put in before rewriting or after. -/
theorem deMorgan_substitute (x c : Name) (f : Formula) :
    (f.substitute x c).deMorgan = f.deMorgan.substitute x c := by
  induction f with
  | truth => rfl
  | atom a => rfl
  | not f ih => simp only [substitute, deMorgan, ih]
  | and f g ihf ihg | or f g ihf ihg => simp only [substitute, deMorgan, ihf, ihg]
  | exist y f ih | forAll y f ih =>
    simp only [substitute, deMorgan]
    split
    · rfl
    · rw [deMorgan, ih]

theorem isSeparator_deMorgan (x : Name) (f : Formula) :
    f.deMorgan.isSeparator x = f.isSeparator x := by
  rw [isSeparator, isSeparator, freePositions_deMorgan]

theorem sharedRelation?_deMorgan (f g : Formula) :
    sharedRelation? f.deMorgan g.deMorgan = sharedRelation? f g := by
  rw [sharedRelation?, sharedRelation?, relations, relations, atoms_deMorgan, atoms_deMorgan]
  rfl

theorem freeVars_deMorgan (f : Formula) : f.deMorgan.freeVars = f.freeVars := by
  rw [freeVars, freeVars, freeOccurrences_deMorgan]

end Formula

/-- An error about a rewritten formula and one about the formula: of one kind, with
one relation or variable, and at one place. -/
inductive Unsupported.Dual : Unsupported → Unsupported → Prop
  | sharedRelation (relation : Name) (shown : Formula) :
    Dual (.sharedRelation relation shown.dualNode) (.sharedRelation relation shown)
  | notSeparator (x : Name) (shown : Formula) :
    Dual (.notSeparator x shown.dualNode) (.notSeparator x shown)
  | freeVariable (x : Name) (shown : Formula) :
    Dual (.freeVariable x shown.deMorgan) (.freeVariable x shown)

namespace Formula

variable {f g : Formula} {x c : Name}

/-- A node passes its test as the node in its place does. -/
theorem fault?_dualNode (f : Formula) :
    Option.Rel Unsupported.Dual f.dualNode.fault? f.fault? := by
  have connective : ∀ found : Option Name, Option.Rel Unsupported.Dual
      (found.map fun relation => .sharedRelation relation f.dualNode)
      (found.map fun relation => .sharedRelation relation f) := by
    intro found
    cases found with
    | none => exact .none
    | some relation => exact .some (.sharedRelation relation f)
  have quantifier : ∀ (separates : Bool) (x : Name), Option.Rel Unsupported.Dual
      (if separates then none else some (.notSeparator x f.dualNode))
      (if separates then none else some (.notSeparator x f)) := by
    intro separates x
    cases separates with
    | true => exact .none
    | false => exact .some (.notSeparator x f)
  cases f with
  | truth => exact .none
  | atom a =>
    show Option.Rel Unsupported.Dual (a.vars.head?.map _) (a.vars.head?.map _)
    cases a.vars.head? with
    | none => exact .none
    | some x => exact .some (.freeVariable x (.atom a))
  | not f => exact .none
  | and f g | or f g =>
    show Option.Rel Unsupported.Dual ((sharedRelation? f.deMorgan g.deMorgan).map _)
      ((sharedRelation? f g).map _)
    rw [sharedRelation?_deMorgan]
    exact connective _
  | exist x f | forAll x f =>
    show Option.Rel Unsupported.Dual (if f.deMorgan.isSeparator x then none else _)
      (if f.isSeparator x then none else _)
    rw [isSeparator_deMorgan]
    exact quantifier _ x

theorem dualNode_fault?_eq_none (fine : f.fault? = none) : f.dualNode.fault? = none := by
  have same := f.fault?_dualNode
  rw [fine] at same
  generalize f.dualNode.fault? = fault at same ⊢
  cases same
  rfl

end Formula

/-! ## Planning -/

namespace Plan

variable {P : Type} [Arithmetic P] {chance : Fact → P} {domain : List Name} {f g : Formula}

/-- The rewritten formula's plan has the value of the formula's, or there is none
for either, for the same reason. -/
def PlannedDual (chance : Fact → P) (domain : List Name) (f : Formula) : Prop :=
  SameOutcome (SameValue chance) Unsupported.Dual (ofFormula domain f.deMorgan) (ofFormula domain f)

/-- The first plan has the opposite of the second's value. -/
def OppositeValue (chance : Fact → P) (plan other : Plan Formula) : Prop :=
  plan.value chance = Arithmetic.complement (other.value chance)

theorem opposite_not (planned : PlannedDual chance domain f) :
    SameOutcome (OppositeValue chance) Unsupported.Dual (ofFormula domain (.not f.deMorgan))
      (ofFormula domain f) := by
  rw [ofFormula_not]
  exact planned.map_left fun plan other same => congrArg Arithmetic.complement same

/-- What fails at a node fails also below a negation. -/
theorem ofFormula_deMorgan_of_fault {error : Unsupported} (fault : f.dualNode.fault? = some error) :
    ofFormula domain f.deMorgan = .error error := by
  have failed : ofFormula domain f.dualNode = .error error := ofFormula_of_fault fault
  cases f with
  | truth | atom a | not f | and f g | forAll x f => exact failed
  | or f g | exist x f =>
    rw [Formula.deMorgan, ofFormula_not]
    exact map_eq_error_iff.2 failed

/-- What is combined of some parts is the opposite of the product of their opposites. -/
theorem opposite_combine {all any : Combination} (subject subject' : Formula)
    {plans others : List (Plan Formula)} (product : (all.apply : List P → P) = Arithmetic.all)
    (union : (any.apply : List P → P) = Arithmetic.any)
    (opposites : List.Forall₂ (OppositeValue chance) plans others) :
    OppositeValue chance (.combine any subject' others) (.combine all subject plans) := by
  have values : plans.map (value chance) =
      (others.map (value chance)).map Arithmetic.complement := by
    rw [List.map_map]
    exact (map_results (opposites.imp fun _ _ here => here.symm)).symm
  rw [OppositeValue, value, value, values_eq_map, values_eq_map, values, product, union,
    Arithmetic.any]

theorem same_negate {attempt other : Except Unsupported (Plan Formula)} (subject : Formula)
    (opposite : SameOutcome (fun plan other => OppositeValue chance other plan) Unsupported.Dual
      attempt other) :
    SameOutcome (SameValue chance) Unsupported.Dual (attempt.map (.negate subject)) other :=
  opposite.map_left fun _ _ here => here.symm

/-- **Rewriting is invisible to planning.** By induction on planning: what is
rewritten fails its tests where the formula does, and combines opposites of the
parts' values where the formula combines the values. -/
theorem plannedDual (chance : Fact → P) (domain : List Name) (f : Formula) :
    PlannedDual chance domain f := by
  induction f using Plan.ofFormula.induct with
  | case1 f error fault =>
    have same := f.fault?_dualNode
    rw [fault] at same
    cases fault' : f.dualNode.fault? with
    | none =>
      rw [fault'] at same
      cases same
    | some error' =>
      rw [fault'] at same
      rw [PlannedDual, ofFormula_deMorgan_of_fault fault', ofFormula_of_fault fault]
      cases same with
      | some reasons => exact .error reasons
  | case2 fine =>
    rw [PlannedDual, Formula.deMorgan, ofFormula_truth]
    exact .ok rfl
  | case3 a fine =>
    rw [PlannedDual, Formula.deMorgan, ofFormula_atom fine]
    exact .ok rfl
  | case4 f fine ih =>
    rw [PlannedDual, Formula.deMorgan, ofFormula_not, ofFormula_not]
    exact ih.map fun plan other same => congrArg Arithmetic.complement same
  | case5 f g fine ihf ihg =>
    rw [PlannedDual, Formula.deMorgan, ofFormula_and fine,
      ofFormula_and (Formula.dualNode_fault?_eq_none fine)]
    exact sides_alike _ _ _ ihf ihg
  | case6 f g fine ihf ihg =>
    rw [PlannedDual, Formula.deMorgan, ofFormula_or fine, ofFormula_not,
      ofFormula_and (Formula.dualNode_fault?_eq_none fine)]
    refine same_negate _ ((opposite_not ihf).both (opposite_not ihg) ?_)
    exact fun _ _ _ _ opposite opposite' =>
      opposite_combine _ _ rfl rfl (.cons opposite (.cons opposite' .nil))
  | case7 x f fine ih =>
    rw [PlannedDual, Formula.deMorgan, ofFormula_exist fine, ofFormula_not,
      ofFormula_forAll (Formula.dualNode_fault?_eq_none fine)]
    have each : ∀ c ∈ domain, SameOutcome (OppositeValue chance) Unsupported.Dual
        (ofFormula domain ((Formula.not f.deMorgan).substitute x c))
        (ofFormula domain (f.substitute x c)) := by
      intro c _
      rw [Formula.substitute, ← Formula.deMorgan_substitute]
      exact opposite_not (ih c)
    exact same_negate _ ((SameOutcome.mapM each).map fun _ _ => opposite_combine _ _ rfl rfl)
  | case8 x f fine ih =>
    rw [PlannedDual, Formula.deMorgan, ofFormula_forAll fine,
      ofFormula_forAll (Formula.dualNode_fault?_eq_none fine)]
    refine branches_alike _ _ rfl fun c _ => ?_
    rw [← Formula.deMorgan_substitute]
    exact ih c

end Plan

namespace Formula

variable {P : Type} [Arithmetic P]

/-- **De Morgan's laws hold of evaluation.** A formula and what is written for it
without disjunctions and existential quantifiers come to one number, by the same
operations in the same order whatever the arithmetic, or are refused at one place
for one reason. -/
theorem evaluate_deMorgan (f : Formula) (s : Store P) (options options' : Options) :
    SameOutcome (fun evaluation other => evaluation.probability = other.probability)
      Unsupported.Dual (f.deMorgan.evaluate s options) (f.evaluate s options') := by
  have planned : SameOutcome (Plan.SameValue s.chance) Unsupported.Dual
      (f.deMorgan.plan s.domain) (f.plan s.domain) := by
    rw [plan, plan, freeVars_deMorgan]
    split
    · exact .error (.freeVariable _ f)
    · exact Plan.plannedDual s.chance s.domain f
  exact planned.bind fun plan other same => .ok same

end Formula

end SafePlan
