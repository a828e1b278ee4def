/-
# SafePlan.Proofs.Renaming — bound names do not matter

The name that a quantifier binds only says which places are its own. In the
nameless form of a formula (`Formula.nameless`) a place says so itself, by the
number of quantifiers between it and its quantifier. Two formulas with one nameless
form differ in bound names at most (`Formula.Alike`).

All that planning asks of a formula can be read off its nameless form: the
relations, what is free, where a quantifier's variable stands, and the body with a
constant in its place (`nameless_substitute`). So alike formulas are planned alike:
the same operations come in the same order, or the same place fails the same test
(`ofFormula_alike`, `evaluate_alike`).
-/
import SafePlan.Proofs.Outcome
import SafePlan.Proofs.Scoping
import SafePlan.Evaluation

set_option autoImplicit false

namespace SafePlan

/-! ## Formulas without bound names -/

/-- A term where bound variables are counted from the innermost quantifier. -/
inductive NamelessTerm where
  | const (name : Name)
  | bound (index : Nat)
  | free (name : Name)
  deriving DecidableEq, Repr

inductive Nameless where
  | truth
  | atom (relation : Name) (terms : List NamelessTerm)
  | not (f : Nameless)
  | and (f g : Nameless)
  | or (f g : Nameless)
  | exist (f : Nameless)
  | forAll (f : Nameless)
  deriving DecidableEq, Repr

/-- The term below quantifiers of the names in scope, the innermost first. -/
def Term.nameless (scope : List Name) : Term → NamelessTerm
  | .const name => .const name
  | .var name =>
    match scope.idxOf? name with
    | some index => .bound index
    | none => .free name

/-- The formula below quantifiers of the names in scope, the innermost first. -/
def Formula.nameless (scope : List Name) : Formula → Nameless
  | .truth => .truth
  | .atom a => .atom a.relation (a.terms.map (Term.nameless scope))
  | .not f => .not (f.nameless scope)
  | .and f g => .and (f.nameless scope) (g.nameless scope)
  | .or f g => .or (f.nameless scope) (g.nameless scope)
  | .exist x f => .exist (f.nameless (x :: scope))
  | .forAll x f => .forAll (f.nameless (x :: scope))

/-- Two formulas that differ in bound names at most. -/
def Formula.Alike (f g : Formula) : Prop := f.nameless [] = g.nameless []

instance : DecidableRel Formula.Alike :=
  fun f g => inferInstanceAs (Decidable (f.nameless [] = g.nameless []))

namespace NamelessTerm

/-- Put a constant in the place of a bound variable. -/
def instantiate (index : Nat) (c : Name) : NamelessTerm → NamelessTerm
  | .const name => .const name
  | .bound other => if other = index then .const c else .bound other
  | .free name => .free name

def free? : NamelessTerm → Option Name
  | .const _ => none
  | .bound _ => none
  | .free name => some name

end NamelessTerm

namespace Nameless

/-- Put a constant in the place of a variable bound around the formula. -/
def instantiate (index : Nat) (c : Name) : Nameless → Nameless
  | .truth => .truth
  | .atom relation terms => .atom relation (terms.map (NamelessTerm.instantiate index c))
  | .not f => .not (f.instantiate index c)
  | .and f g => .and (f.instantiate index c) (g.instantiate index c)
  | .or f g => .or (f.instantiate index c) (g.instantiate index c)
  | .exist f => .exist (f.instantiate (index + 1) c)
  | .forAll f => .forAll (f.instantiate (index + 1) c)

def relations : Nameless → List Name
  | .truth => []
  | .atom relation _ => [relation]
  | .not f => f.relations
  | .and f g => f.relations ++ g.relations
  | .or f g => f.relations ++ g.relations
  | .exist f => f.relations
  | .forAll f => f.relations

/-- The names of free variables, one for each occurrence. -/
def freeNames : Nameless → List Name
  | .truth => []
  | .atom _ terms => terms.filterMap NamelessTerm.free?
  | .not f => f.freeNames
  | .and f g => f.freeNames ++ g.freeNames
  | .or f g => f.freeNames ++ g.freeNames
  | .exist f => f.freeNames
  | .forAll f => f.freeNames

/-- The positions of a variable bound around the formula, with the relations they
belong to. -/
def places (index : Nat) : Nameless → List (Name × List Nat)
  | .truth => []
  | .atom relation terms =>
    [(relation, terms.zipIdx.filterMap fun (term, position) =>
      if term = .bound index then some position else none)]
  | .not f => f.places index
  | .and f g => f.places index ++ g.places index
  | .or f g => f.places index ++ g.places index
  | .exist f => f.places (index + 1)
  | .forAll f => f.places (index + 1)

end Nameless

/-! ## What is read off -/

namespace Term

variable {scope : List Name} {x : Name} {t : Term}

/-- A name has its quantifier in the scope, or it is that of the quantifier around
the scope, or it is free. -/
theorem nameless_cases (scope : List Name) (x name : Name) :
    (name ∈ scope ∧ ∃ index < scope.length, (var name).nameless scope = .bound index ∧
      (var name).nameless (scope ++ [x]) = .bound index) ∨
    (name ∉ scope ∧ (var name).nameless scope = .free name ∧
      (var name).nameless (scope ++ [x]) =
        if name = x then .bound scope.length else .free name) := by
  have around : (scope ++ [x]).idxOf? name =
      (scope.idxOf? name).or (if x = name then some scope.length else none) := by
    rw [List.idxOf?, List.findIdx?_append]
    by_cases same : x = name <;> simp [List.findIdx?_cons, same]
  simp only [nameless, around]
  cases found : scope.idxOf? name with
  | some index =>
    obtain ⟨inside, here, -⟩ := List.idxOf?_eq_some_iff.1 found
    exact .inl ⟨here ▸ List.getElem_mem inside, index, inside, rfl, rfl⟩
  | none =>
    refine .inr ⟨List.idxOf?_eq_none_iff.1 found, rfl, ?_⟩
    by_cases same : x = name
    · simp [same]
    · simp [same, Ne.symm same]

theorem nameless_eq_bound_iff :
    t.nameless (scope ++ [x]) = .bound scope.length ↔ x ∉ scope ∧ t.var? = some x := by
  cases t with
  | const name => simp [nameless, var?]
  | var name =>
    rw [var?, Option.some.injEq]
    rcases nameless_cases scope x name with ⟨inside, index, lower, -, around⟩ |
      ⟨outside, -, around⟩
    · rw [around, NamelessTerm.bound.injEq]
      constructor
      · intro same
        exact absurd lower (same ▸ Nat.lt_irrefl _)
      · rintro ⟨absent, rfl⟩
        exact absurd inside absent
    · rw [around]
      by_cases same : name = x
      · subst same
        simp [outside]
      · simp [same]

theorem nameless_substitute (t : Term) (scope : List Name) (x c : Name) :
    (if x ∈ scope then t else t.substitute x c).nameless scope =
      (t.nameless (scope ++ [x])).instantiate scope.length c := by
  cases t with
  | const name => split <;> rfl
  | var name =>
    rcases nameless_cases scope x name with ⟨inside, index, lower, here, around⟩ |
      ⟨outside, here, around⟩
    · have kept : (if x ∈ scope then var name else (var name).substitute x c) = var name := by
        split <;> rename_i absent
        · rfl
        · have different : name ≠ x := fun same => absent (same ▸ inside)
          rw [substitute, if_neg different]
      rw [kept, here, around, NamelessTerm.instantiate, if_neg (Nat.ne_of_lt lower)]
    · by_cases same : name = x
      · subst same
        rw [if_neg outside, substitute, around, if_pos rfl, if_pos rfl,
          NamelessTerm.instantiate, if_pos rfl, nameless]
      · rw [substitute, if_neg same, ite_self, here, around, if_neg same, NamelessTerm.instantiate]

theorem free?_nameless (scope : List Name) (t : Term) :
    (t.nameless scope).free? = t.var?.filter (· ∉ scope) := by
  cases t with
  | const name => rfl
  | var name =>
    rcases nameless_cases scope name name with ⟨inside, _, _, here, -⟩ | ⟨outside, here, -⟩
    · rw [here, var?, Option.filter_some, if_neg (by simpa using inside), NamelessTerm.free?]
    · rw [here, var?, Option.filter_some, if_pos (by simpa using outside), NamelessTerm.free?]

/-- Below no quantifiers, nothing is left out. -/
theorem nameless_nil_injective : Function.Injective (Term.nameless []) := by
  intro t u same
  cases t <;> cases u <;> simp_all [nameless]

end Term

namespace Formula

variable {f g : Formula} {x y : Name}

theorem relations_nameless (scope : List Name) (f : Formula) :
    (f.nameless scope).relations = f.atoms.map Atom.relation := by
  induction f generalizing scope with
  | truth => rfl
  | atom a => rfl
  | not f ih => exact ih scope
  | and f g ihf ihg | or f g ihf ihg =>
    rw [nameless, Nameless.relations, ihf, ihg, atoms, List.map_append]
  | exist y f ih | forAll y f ih => exact ih (y :: scope)

theorem freeNames_nameless (scope : List Name) (f : Formula) :
    (f.nameless scope).freeNames = f.occurrencesUnder scope := by
  induction f generalizing scope with
  | truth => rfl
  | atom a =>
    simp only [nameless, Nameless.freeNames, occurrencesUnder, Atom.vars, List.filterMap_map,
      Function.comp_def, Term.free?_nameless, List.filter_filterMap]
  | not f ih => exact ih scope
  | and f g ihf ihg | or f g ihf ihg =>
    rw [nameless, Nameless.freeNames, ihf, ihg, occurrencesUnder]
  | exist y f ih | forAll y f ih => exact ih (y :: scope)

/-- The places of the outermost name in scope, unless a quantifier inside binds it
again. -/
theorem places_nameless (scope : List Name) (x : Name) (f : Formula) :
    (f.nameless (scope ++ [x])).places scope.length =
      (f.positionsWhile x (x ∉ scope)).map fun place => (place.1.relation, place.2) := by
  induction f generalizing scope with
  | truth => rfl
  | atom a =>
    by_cases again : x ∈ scope <;>
      simp [nameless, Nameless.places, positionsWhile, Atom.positionsOf, List.zipIdx_map,
        List.filterMap_map, Term.nameless_eq_bound_iff, again]
  | not f ih => exact ih scope
  | and f g ihf ihg | or f g ihf ihg =>
    rw [nameless, Nameless.places, ihf, ihg, positionsWhile, List.map_append]
  | exist y f ih | forAll y f ih =>
    have visible : decide (x ∉ y :: scope) = (decide (x ∉ scope) && decide (y ≠ x)) := by
      simp [Bool.and_comm, eq_comm]
    rw [positionsWhile, ← visible]
    exact ih (y :: scope)

/-- A constant for the outermost name in scope, unless a quantifier inside binds it
again. -/
theorem nameless_substitute (scope : List Name) (x c : Name) (f : Formula) :
    (if x ∈ scope then f else f.substitute x c).nameless scope =
      (f.nameless (scope ++ [x])).instantiate scope.length c := by
  induction f generalizing scope with
  | truth => split <;> rfl
  | atom a =>
    simp only [nameless, Nameless.instantiate, List.map_map, Function.comp_def,
      ← Term.nameless_substitute]
    split <;> simp [nameless, substitute, Atom.substitute]
  | not f ih =>
    rw [nameless, Nameless.instantiate, ← ih]
    split <;> rfl
  | and f g ihf ihg | or f g ihf ihg =>
    rw [nameless, Nameless.instantiate, ← ihf, ← ihg]
    split <;> rfl
  | exist y f ih | forAll y f ih =>
    have inside := ih (y :: scope)
    rw [List.cons_append, List.length_cons] at inside
    rw [nameless, Nameless.instantiate, ← inside]
    by_cases outer : x ∈ scope
    · simp [outer, nameless]
    · by_cases again : y = x
      · simp [outer, again, substitute, nameless]
      · simp [outer, again, Ne.symm again, substitute, nameless]

/-! ### From alike formulas -/

theorem Alike.relations_eq (alike : f.Alike g) : f.relations = g.relations := by
  rw [relations, relations, ← relations_nameless [] f, alike, relations_nameless]

theorem Alike.freeVars_eq (alike : f.Alike g) : f.freeVars = g.freeVars := by
  rw [freeVars_eq_occurrencesUnder, freeVars_eq_occurrencesUnder, ← freeNames_nameless, alike,
    freeNames_nameless]

theorem isSeparator_eq_of_nameless (alike : f.nameless [x] = g.nameless [y]) :
    f.isSeparator x = g.isSeparator y := by
  have read : ∀ (f : Formula) (x : Name), (f.nameless [x]).places 0 = f.places x := by
    intro f x
    have visible : f.positionsWhile x true = f.freePositions x := positionsWhile_eq x true f
    rw [places, ← visible]
    exact places_nameless [] x f
  apply isSeparator_eq_of_places
  rw [← read, alike, read]

theorem alike_substitute (alike : f.nameless [x] = g.nameless [y]) (c : Name) :
    (f.substitute x c).Alike (g.substitute y c) := by
  have instantiated := nameless_substitute [] x c f
  have instantiated' := nameless_substitute [] y c g
  rw [if_neg List.not_mem_nil] at instantiated instantiated'
  rw [Alike, instantiated, instantiated']
  exact congrArg _ alike

/-! ## Step by step -/

/-- What alike formulas are: one connective with alike sides, or quantifiers with
bodies that are alike below their names. -/
inductive AlikeParts : Formula → Formula → Prop
  | truth : AlikeParts .truth .truth
  | atom (a : Atom) : AlikeParts (.atom a) (.atom a)
  | not {f g : Formula} (body : f.Alike g) : AlikeParts (.not f) (.not g)
  | and {f f' g g' : Formula} (left : f.Alike g) (right : f'.Alike g') :
    AlikeParts (.and f f') (.and g g')
  | or {f f' g g' : Formula} (left : f.Alike g) (right : f'.Alike g') :
    AlikeParts (.or f f') (.or g g')
  | exist {f g : Formula} (x y : Name) (body : f.nameless [x] = g.nameless [y]) :
    AlikeParts (.exist x f) (.exist y g)
  | forAll {f g : Formula} (x y : Name) (body : f.nameless [x] = g.nameless [y]) :
    AlikeParts (.forAll x f) (.forAll y g)

theorem Alike.parts (alike : f.Alike g) : f.AlikeParts g := by
  rw [Alike] at alike
  cases f <;> cases g <;> simp only [nameless, reduceCtorEq, Nameless.not.injEq,
    Nameless.and.injEq, Nameless.or.injEq, Nameless.exist.injEq, Nameless.forAll.injEq,
    Nameless.atom.injEq] at alike
  case truth => exact .truth
  case atom a b =>
    obtain ⟨relation, terms⟩ := a
    obtain ⟨rfl, sameTerms⟩ := alike
    obtain rfl := List.map_injective_iff.2 Term.nameless_nil_injective sameTerms
    exact .atom _
  case not body => exact .not alike
  case and => exact .and alike.1 alike.2
  case or => exact .or alike.1 alike.2
  case exist x f y g => exact .exist x y alike
  case forAll x f y g => exact .forAll x y alike

end Formula

/-- Errors of one kind, about one relation or one free variable, that report alike
formulas. -/
inductive Unsupported.Alike : Unsupported → Unsupported → Prop
  | sharedRelation {f g : Formula} (relation : Name) (shown : f.Alike g) :
    Alike (.sharedRelation relation f) (.sharedRelation relation g)
  | notSeparator {f g : Formula} (x y : Name) (shown : f.Alike g) :
    Alike (.notSeparator x f) (.notSeparator y g)
  | freeVariable {f g : Formula} (x : Name) (shown : f.Alike g) :
    Alike (.freeVariable x f) (.freeVariable x g)

namespace Formula

variable {f g f' g' : Formula}

theorem sharedRelation?_eq_of_alike (left : f.Alike g) (right : f'.Alike g') :
    sharedRelation? f f' = sharedRelation? g g' := by
  rw [sharedRelation?, sharedRelation?, left.relations_eq, right.relations_eq]

/-- Alike formulas pass the test of their outermost step, or fail it alike. -/
theorem Alike.fault? (alike : f.Alike g) : Option.Rel Unsupported.Alike f.fault? g.fault? := by
  have shared : ∀ found : Option Name, Option.Rel Unsupported.Alike
      (found.map fun relation => .sharedRelation relation f)
      (found.map fun relation => .sharedRelation relation g) := by
    intro found
    cases found with
    | none => exact .none
    | some relation => exact .some (.sharedRelation relation alike)
  cases alike.parts with
  | truth => exact .none
  | atom a =>
    rw [Formula.fault?]
    cases a.vars.head? with
    | none => exact .none
    | some x => exact .some (.freeVariable x rfl)
  | not body => exact .none
  | and left right | or left right =>
    rw [Formula.fault?, Formula.fault?, sharedRelation?_eq_of_alike left right]
    exact shared _
  | exist x y body | forAll x y body =>
    rw [Formula.fault?, Formula.fault?, isSeparator_eq_of_nameless body]
    split
    · exact .none
    · exact .some (.notSeparator x y alike)

theorem Alike.fault?_eq_none (alike : f.Alike g) (fine : f.fault? = none) : g.fault? = none := by
  have same := alike.fault?
  rw [fine] at same
  generalize g.fault? = fault at same ⊢
  cases same
  rfl

end Formula

/-! ## Planning -/

namespace Plan

variable {P : Type} [Arithmetic P] {chance : Fact → P} {domain : List Name}
  {f g f' g' : Formula} {x y : Name}

/-- The plans have one value. Plans of which this holds in every arithmetic come to
it by the same operations in the same order, for arithmetic has no laws. -/
def SameValue (chance : Fact → P) (plan other : Plan Formula) : Prop :=
  plan.value chance = other.value chance

/-- The formulas' plans have one value, or there is none for either, for alike
reasons. -/
def PlannedAlike (chance : Fact → P) (domain : List Name) (f g : Formula) : Prop :=
  SameOutcome (SameValue chance) Unsupported.Alike (ofFormula domain f) (ofFormula domain g)

theorem plannedAlike_not (body : PlannedAlike chance domain f g) :
    PlannedAlike chance domain (.not f) (.not g) := by
  rw [PlannedAlike, ofFormula_not, ofFormula_not]
  exact body.map fun plan other same => congrArg Arithmetic.complement same

/-- The two sides of a connective, whatever makes their errors akin. -/
theorem sides_alike {akin : Unsupported → Unsupported → Prop} (combination : Combination)
    (subject subject' : Formula)
    (left : SameOutcome (SameValue chance) akin (ofFormula domain f) (ofFormula domain g))
    (right : SameOutcome (SameValue chance) akin (ofFormula domain f') (ofFormula domain g')) :
    SameOutcome (SameValue chance) akin
      (do
        let left ← ofFormula domain f
        let right ← ofFormula domain f'
        return .combine combination subject [left, right])
      (do
        let left ← ofFormula domain g
        let right ← ofFormula domain g'
        return .combine combination subject' [left, right]) := by
  refine left.both right fun plan other plan' other' same same' => ?_
  have sameValues : [plan, plan'].map (value chance) = [other, other'].map (value chance) := by
    rw [SameValue] at same same'
    simp [same, same']
  rw [SameValue, value, value, values_eq_map, values_eq_map, sameValues]

/-- The branches of a quantifier, combined in one way under either name. -/
theorem branches_alike {akin : Unsupported → Unsupported → Prop}
    {combination combination' : Combination} (subject subject' : Formula)
    (oneWay : (combination.apply : List P → P) = combination'.apply)
    (each : ∀ c ∈ domain, SameOutcome (SameValue chance) akin
      (ofFormula domain (f.substitute x c)) (ofFormula domain (g.substitute y c))) :
    SameOutcome (SameValue chance) akin
      ((domain.mapM fun c => ofFormula domain (f.substitute x c)).map
        (.combine combination subject))
      ((domain.mapM fun c => ofFormula domain (g.substitute y c)).map
        (.combine combination' subject')) := by
  refine (SameOutcome.mapM each).map fun plans others same => ?_
  have sameValues : others.map (value chance) = plans.map (value chance) :=
    map_results (same.imp fun _ _ here => here.symm)
  rw [SameValue, value, value, values_eq_map, values_eq_map, sameValues, oneWay]

/-- **Alike formulas are planned alike.** By induction on planning: alike formulas
have alike parts, and the bodies of their quantifiers are alike at each constant. -/
theorem ofFormula_alike (alike : f.Alike g) : PlannedAlike chance domain f g := by
  induction f using Plan.ofFormula.induct generalizing g with
  | case1 f error fault =>
    have same := alike.fault?
    cases fault' : g.fault? with
    | none =>
      rw [fault, fault'] at same
      cases same
    | some error' =>
      rw [fault, fault'] at same
      rw [PlannedAlike, ofFormula_of_fault fault, ofFormula_of_fault fault']
      cases same with
      | some reasons => exact .error reasons
  | case2 fine =>
    cases alike.parts
    rw [PlannedAlike, ofFormula_truth]
    exact .ok rfl
  | case3 a fine =>
    cases alike.parts
    rw [PlannedAlike, ofFormula_atom fine]
    exact .ok rfl
  | case4 f fine ih =>
    cases alike.parts with
    | not body => exact plannedAlike_not (ih body)
  | case5 f f' fine ih ih' =>
    have fine' := alike.fault?_eq_none fine
    cases alike.parts with
    | and left right =>
      rw [PlannedAlike, ofFormula_and fine, ofFormula_and fine']
      exact sides_alike _ _ _ (ih left) (ih' right)
  | case6 f f' fine ih ih' =>
    have fine' := alike.fault?_eq_none fine
    cases alike.parts with
    | or left right =>
      rw [PlannedAlike, ofFormula_or fine, ofFormula_or fine']
      exact sides_alike _ _ _ (ih left) (ih' right)
  | case7 x f fine ih =>
    have fine' := alike.fault?_eq_none fine
    cases alike.parts with
    | exist x y body =>
      rw [PlannedAlike, ofFormula_exist fine, ofFormula_exist fine']
      exact branches_alike _ _ rfl fun c _ => ih c (Formula.alike_substitute body c)
  | case8 x f fine ih =>
    have fine' := alike.fault?_eq_none fine
    cases alike.parts with
    | forAll x y body =>
      rw [PlannedAlike, ofFormula_forAll fine, ofFormula_forAll fine']
      exact branches_alike _ _ rfl fun c _ => ih c (Formula.alike_substitute body c)

end Plan

namespace Formula

variable {P : Type} [Arithmetic P] {f g : Formula}

/-- **Bound names do not matter.** Formulas that differ in bound names at most are
evaluated to one number, by the same operations in the same order whatever the
arithmetic, or refused with errors of one kind. -/
theorem evaluate_alike (alike : f.Alike g) (s : Store P) (options options' : Options) :
    SameOutcome (fun evaluation other => evaluation.probability = other.probability)
      Unsupported.Alike (f.evaluate s options) (g.evaluate s options') := by
  have planned : SameOutcome (Plan.SameValue s.chance) Unsupported.Alike
      (f.plan s.domain) (g.plan s.domain) := by
    rw [plan, plan, alike.freeVars_eq]
    split
    · exact .error (.freeVariable _ alike)
    · exact Plan.ofFormula_alike alike
  exact planned.bind fun plan other same => .ok same

/-- `∃x R(x) ∧ ¬∃x S(a, x)`. -/
def oneName : Formula :=
  .and (.exist "x" (.atom ⟨"R", [.var "x"]⟩))
    (.not (.exist "x" (.atom ⟨"S", [.const "a", .var "x"]⟩)))

/-- `∃b R(b) ∧ ¬∃a S(a, a)`, where the first `a` of `S` is the constant and the
second the variable. -/
def constantNames : Formula :=
  .and (.exist "b" (.atom ⟨"R", [.var "b"]⟩))
    (.not (.exist "a" (.atom ⟨"S", [.const "a", .var "a"]⟩)))

/-- One name for two quantifiers, against names that are spelled like constants. -/
theorem evaluate_alike_constantNames :
    oneName.Alike constantNames ∧ Store.pair.domain = ["a", "b"] ∧
      ∃ evaluation, constantNames.evaluate Store.pair {} = .ok evaluation ∧
        evaluation.probability = 1 / 3 := by
  have alike : oneName.Alike constantNames := by decide
  have computed : (oneName.evaluate Store.pair {}).toOption.map (·.probability) = some (1 / 3) := by
    decide +kernel
  refine ⟨alike, by decide +kernel, ?_⟩
  have same := evaluate_alike alike Store.pair {} {}
  generalize oneName.evaluate Store.pair {} = outcome at same computed
  generalize constantNames.evaluate Store.pair {} = outcome' at same ⊢
  cases same with
  | ok results => exact ⟨_, rfl, results.symm.trans (Option.some.inj computed)⟩
  | error reasons => cases computed

/-- Inside, the name is that of the inner quantifier. -/
example : (Formula.exist "x" (.exist "x" (.atom ⟨"R", [.var "x"]⟩))).Alike
      (.exist "x" (.exist "y" (.atom ⟨"R", [.var "y"]⟩))) ∧
    ¬ (Formula.exist "x" (.exist "x" (.atom ⟨"R", [.var "x"]⟩))).Alike
      (.exist "x" (.exist "y" (.atom ⟨"R", [.var "x"]⟩))) := by decide

end Formula

end SafePlan
