/-
# SafePlan.Proofs.Acceptance — which formulas are accepted

Planning tests a node when it comes to it, and then the variables bound around
the node have already been replaced by constants. The tests do not notice: the
relations of a formula and the places of its other variables stay as they are
(`relations_substitute`, `isSeparator_substitute`). So a closed formula is
accepted over a domain that is not empty exactly when every node of the formula
as written passes, and otherwise the first node in pre-order that does not is
the one reported (`evaluate_closed`). It is reported as the first branch of all
quantifiers around it shows it: with the least constant for what they bind.

One constant for all of them is also why the order of the replacements does not
matter (`substitute_comm`).
-/
import SafePlan.Evaluation
import SafePlan.Proofs.Likelihood
import SafePlan.Proofs.Outcome
import SafePlan.Proofs.Positions

set_option autoImplicit false

namespace SafePlan

/-! ## Substituting for several variables -/

section Substitution

variable {x y c d : Name}

/-- Substitutions commute unless they put different constants in one place. -/
theorem Term.substitute_comm (compatible : x = y → c = d) (t : Term) :
    (t.substitute x c).substitute y d = (t.substitute y d).substitute x c := by
  cases t with
  | const name => rfl
  | var name =>
    by_cases atX : name = x
    · subst atX
      by_cases atY : name = y
      · subst atY
        rw [compatible rfl]
      · simp [substitute, atY]
    · by_cases atY : name = y
      · subst atY
        simp [substitute, atX]
      · simp [substitute, atX, atY]

theorem Term.substitute_substitute (c d : Name) (t : Term) :
    (t.substitute x c).substitute x d = t.substitute x c := by
  cases t with
  | const name => rfl
  | var name => by_cases here : name = x <;> simp [substitute, here]

theorem Atom.substitute_comm (compatible : x = y → c = d) (a : Atom) :
    (a.substitute x c).substitute y d = (a.substitute y d).substitute x c := by
  simp [substitute, Function.comp_def, Term.substitute_comm compatible]

theorem Atom.substitute_substitute (c d : Name) (a : Atom) :
    (a.substitute x c).substitute x d = a.substitute x c := by
  simp [substitute, Function.comp_def, Term.substitute_substitute]

end Substitution

theorem Term.var?_substitute {x y : Name} (different : y ≠ x) (c : Name) (t : Term) :
    (t.substitute x c).var? = some y ↔ t.var? = some y := by
  cases t with
  | const name => rfl
  | var name =>
    by_cases here : name = x
    · simp [substitute, var?, here, different.symm]
    · rw [substitute, if_neg here]

theorem Atom.positionsOf_substitute {x y : Name} (different : y ≠ x) (c : Name) (a : Atom) :
    (a.substitute x c).positionsOf y = a.positionsOf y := by
  simp only [positionsOf, substitute, List.zipIdx_map, List.filterMap_map, Function.comp_def,
    Prod.map_fst, Prod.map_snd, id, Term.var?_substitute different]

namespace Formula

variable {f g : Formula} {x y c d : Name}

theorem substitute_comm (compatible : x = y → c = d) (f : Formula) :
    (f.substitute x c).substitute y d = (f.substitute y d).substitute x c := by
  induction f with
  | truth => rfl
  | atom a => simp only [substitute, Atom.substitute_comm compatible]
  | not f ih => simp only [substitute, ih]
  | and f g ihf ihg | or f g ihf ihg => simp only [substitute, ihf, ihg]
  | exist z f ih | forAll z f ih =>
    by_cases atX : z = x
    · subst atX
      by_cases atY : z = y <;> simp [substitute, atY]
    · by_cases atY : z = y
      · subst atY
        simp [substitute, atX]
      · simp [substitute, atX, atY, ih]

theorem substitute_substitute (c d : Name) (f : Formula) :
    (f.substitute x c).substitute x d = f.substitute x c := by
  fun_induction substitute x c f <;> simp_all [substitute, Atom.substitute_substitute]

/-- Put one constant in the place of all the names' free occurrences. -/
def ground (c : Name) (names : List Name) (f : Formula) : Formula :=
  names.foldl (fun f x => f.substitute x c) f

/-- A name among those replaced anyway may also be replaced before. -/
theorem ground_cons_of_mem {names : List Name} (listed : x ∈ names) (c : Name) (f : Formula) :
    f.ground c (x :: names) = f.ground c names := by
  show (f.substitute x c).ground c names = f.ground c names
  induction names generalizing f with
  | nil => cases listed
  | cons y rest ih =>
    show ((f.substitute x c).substitute y c).ground c rest = (f.substitute y c).ground c rest
    rcases List.mem_cons.1 listed with rfl | later
    · rw [substitute_substitute]
    · rw [substitute_comm fun _ => rfl]
      exact ih later (f.substitute y c)

/-! ## What substitution leaves alone -/

theorem map_relation_substitute (x c : Name) (f : Formula) :
    (f.substitute x c).atoms.map Atom.relation = f.atoms.map Atom.relation := by
  fun_induction substitute x c f <;> simp_all [atoms]

@[simp] theorem relations_substitute (x c : Name) (f : Formula) :
    (f.substitute x c).relations = f.relations := by
  rw [relations, relations, map_relation_substitute]

@[simp] theorem freeOccurrences_substitute (x c : Name) (f : Formula) :
    (f.substitute x c).freeOccurrences = f.freeOccurrences.filter (· ≠ x) := by
  induction f with
  | truth => rfl
  | atom a => exact a.vars_substitute x c
  | not f ih => exact ih
  | and f g ihf ihg | or f g ihf ihg =>
    simp only [substitute, freeOccurrences, ihf, ihg, List.filter_append]
  | exist y f ih | forAll y f ih =>
    rw [substitute]
    split <;> rename_i same
    · simp [freeOccurrences, same]
    · simp only [freeOccurrences, ih, List.filter_filter, Bool.and_comm]

/-- The positions at which a name is free, with the relations they belong to. This
is all that the test for separators reads. -/
def places (x : Name) (f : Formula) : List (Name × List Nat) :=
  (f.freePositions x).map fun place => (place.1.relation, place.2)

theorem isSeparator_eq_of_places {f' : Formula} {x' : Name} (same : f.places x = f'.places x') :
    f.isSeparator x = f'.isSeparator x' := by
  have reads : ∀ (f : Formula) (x : Name), f.isSeparator x =
      (f.places x).all fun place => !place.2.isEmpty &&
        (f.places x).all fun other => place.1 != other.1 || place.2 == other.2 := by
    intro f x
    simp only [isSeparator, places, List.all_map, Function.comp_def]
  rw [reads, reads, same]

theorem places_substitute (different : y ≠ x) (c : Name) (f : Formula) :
    (f.substitute x c).places y = f.places y := by
  -- below a quantifier that binds the name again, every atom counts with no positions
  have hidden : ∀ f : Formula, ((f.substitute x c).atoms.map fun a => (a, ([] : List Nat))).map
      (fun place => (place.1.relation, place.2)) =
        (f.atoms.map fun a => (a, ([] : List Nat))).map
          (fun place => (place.1.relation, place.2)) := by
    intro f
    have relations :=
      congrArg (List.map fun r => (r, ([] : List Nat))) (map_relation_substitute x c f)
    simpa only [List.map_map, Function.comp_def] using relations
  induction f with
  | truth => rfl
  | atom a => simp [substitute, places, freePositions, Atom.positionsOf_substitute different]
  | not f ih => exact ih
  | and f g ihf ihg | or f g ihf ihg =>
    simp only [places, substitute, freePositions, List.map_append] at ihf ihg ⊢
    rw [ihf, ihg]
  | exist z f ih | forAll z f ih =>
    rw [substitute]
    split
    · rfl
    · simp only [places, freePositions] at ih ⊢
      split
      · exact hidden f
      · exact ih

theorem isSeparator_substitute (different : y ≠ x) (c : Name) (f : Formula) :
    (f.substitute x c).isSeparator y = f.isSeparator y :=
  isSeparator_eq_of_places (places_substitute different c f)

/-! ## Nodes -/

/-- The nodes in pre-order, each with the names bound around it, the outermost first. -/
def nodes : Formula → List (List Name × Formula)
  | .truth => [([], .truth)]
  | .atom a => [([], .atom a)]
  | .not f => ([], .not f) :: f.nodes
  | .and f g => ([], .and f g) :: (f.nodes ++ g.nodes)
  | .or f g => ([], .or f g) :: (f.nodes ++ g.nodes)
  | .exist x f => ([], .exist x f) :: f.nodes.map fun (outer, node) => (x :: outer, node)
  | .forAll x f => ([], .forAll x f) :: f.nodes.map fun (outer, node) => (x :: outer, node)

/-- The nodes of a formula with a constant for a variable, except below quantifiers
that bind the variable again. -/
theorem nodes_substitute (x c : Name) (f : Formula) :
    (f.substitute x c).nodes = f.nodes.map fun (outer, node) =>
      (outer, if x ∈ outer then node else node.substitute x c) := by
  induction f with
  | truth => rfl
  | atom a => rfl
  | not f ih => simp [nodes, substitute, ih]
  | and f g ihf ihg | or f g ihf ihg => simp [nodes, substitute, ihf, ihg]
  | exist y f ih | forAll y f ih =>
    by_cases same : y = x
    · subst same
      simp [nodes, substitute]
    · simp [nodes, substitute, same, ih, Ne.symm same]

/-- The test of a single node: the sides of a connective read no relation in
common, the variable of a quantifier separates its body. -/
def Independent : Formula → Prop
  | .truth => True
  | .atom _ => True
  | .not _ => True
  | .and f g => ∀ r ∈ f.relations, r ∉ g.relations
  | .or f g => ∀ r ∈ f.relations, r ∉ g.relations
  | .exist x f => f.isSeparator x = true
  | .forAll x f => f.isSeparator x = true

instance : DecidablePred Independent
  | .truth => inferInstanceAs (Decidable True)
  | .atom _ => inferInstanceAs (Decidable True)
  | .not _ => inferInstanceAs (Decidable True)
  | .and f g => inferInstanceAs (Decidable (∀ r ∈ f.relations, r ∉ g.relations))
  | .or f g => inferInstanceAs (Decidable (∀ r ∈ f.relations, r ∉ g.relations))
  | .exist x f => inferInstanceAs (Decidable (f.isSeparator x = true))
  | .forAll x f => inferInstanceAs (Decidable (f.isSeparator x = true))

/-- The least relation that both formulas read. -/
def LeastShared (f g : Formula) (r : Name) : Prop :=
  (r ∈ f.relations ∧ r ∈ g.relations) ∧ ∀ r' ∈ f.relations, r' ∈ g.relations → r ≤ r'

/-- What is reported of a node that fails its test, where it shows as `shown`. -/
def Reports (shown : Formula) : Formula → Unsupported → Prop
  | .truth, _ => False
  | .atom _, _ => False
  | .not _, _ => False
  | .and f g, error => ∃ r, LeastShared f g r ∧ error = .sharedRelation r shown
  | .or f g, error => ∃ r, LeastShared f g r ∧ error = .sharedRelation r shown
  | .exist x _, error => error = .notSeparator x shown
  | .forAll x _, error => error = .notSeparator x shown

/-- The first node that fails its test. -/
def firstDependent (f : Formula) : Option (List Name × Formula) :=
  f.nodes.find? fun (_, node) => ¬ node.Independent

section FirstDependent

theorem firstDependent_of_dependent (dependent : ¬ f.Independent) :
    f.firstDependent = some ([], f) := by
  cases f <;> simp [firstDependent, nodes, dependent]

theorem firstDependent_not : (Formula.not f).firstDependent = f.firstDependent := by
  simp [firstDependent, nodes, Independent]

theorem firstDependent_and (independent : (Formula.and f g).Independent) :
    (Formula.and f g).firstDependent = f.firstDependent.or g.firstDependent := by
  simp [firstDependent, nodes, independent, List.find?_append]

theorem firstDependent_or (independent : (Formula.or f g).Independent) :
    (Formula.or f g).firstDependent = f.firstDependent.or g.firstDependent := by
  simp [firstDependent, nodes, independent, List.find?_append]

theorem firstDependent_exist (independent : (Formula.exist x f).Independent) :
    (Formula.exist x f).firstDependent =
      f.firstDependent.map fun (outer, node) => (x :: outer, node) := by
  rw [firstDependent, nodes, List.find?_cons_of_neg (by simpa using independent), List.find?_map]
  rfl

theorem firstDependent_forAll (independent : (Formula.forAll x f).Independent) :
    (Formula.forAll x f).firstDependent =
      f.firstDependent.map fun (outer, node) => (x :: outer, node) := by
  rw [firstDependent, nodes, List.find?_cons_of_neg (by simpa using independent), List.find?_map]
  rfl

theorem firstDependent_eq_none_iff :
    f.firstDependent = none ↔ ∀ entry ∈ f.nodes, entry.2.Independent := by
  simp [firstDependent, List.find?_eq_none]

end FirstDependent

/-! ### Under substitution -/

theorem independent_substitute (x c : Name) (f : Formula) :
    (f.substitute x c).Independent ↔ f.Independent := by
  cases f with
  | truth => rfl
  | atom a => rfl
  | not f => rfl
  | and f g | or f g => simp only [substitute, Independent, relations_substitute]
  | exist y f | forAll y f =>
    rw [substitute]
    split <;> rename_i same
    · rfl
    · rw [Independent, Independent, isSeparator_substitute same]

theorem reports_substitute (x c : Name) (shown f : Formula) (error : Unsupported) :
    Reports shown (f.substitute x c) error ↔ Reports shown f error := by
  cases f with
  | truth => rfl
  | atom a => rfl
  | not f => rfl
  | and f g | or f g => simp only [substitute, Reports, LeastShared, relations_substitute]
  | exist y f | forAll y f => rw [substitute]; split <;> rfl

/-- Substitution moves no first failure. -/
theorem firstDependent_substitute (x c : Name) (f : Formula) :
    (f.substitute x c).firstDependent = f.firstDependent.map fun (outer, node) =>
      (outer, if x ∈ outer then node else node.substitute x c) := by
  have same : ∀ entry : List Name × Formula,
      (if x ∈ entry.1 then entry.2 else entry.2.substitute x c).Independent ↔
        entry.2.Independent := by
    intro entry
    split
    · rfl
    · exact independent_substitute x c entry.2
  simp only [firstDependent, nodes_substitute, List.find?_map, Function.comp_def, same]

/-! ## The test of one step -/

theorem sharedRelation?_eq_some {r : Name} (found : sharedRelation? f g = some r) :
    LeastShared f g r := by
  obtain ⟨shared, before, after, split, unshared⟩ := List.find?_eq_some_iff_append.1 found
  have increasing : (before ++ r :: after).Pairwise (· < ·) := by
    rw [← split]
    exact NameSet.increasing_ofList _
  refine ⟨⟨by simpa using shared, by rw [split]; simp⟩, fun r' listed listed' => ?_⟩
  rw [split, List.mem_append, List.mem_cons] at listed'
  rcases listed' with earlier | rfl | later
  · have := unshared r' earlier
    simp [listed] at this
  · exact String.le_refl _
  · have after := (List.pairwise_cons.1 (List.pairwise_append.1 increasing).2.1).1 r' later
    exact String.not_lt.1 fun before => String.lt_irrefl r (String.lt_trans after before)

theorem independent_of_fault?_eq_none (faultless : f.fault? = none) : f.Independent := by
  cases f with
  | truth => trivial
  | atom a => trivial
  | not f => trivial
  | and f g | or f g =>
    intro r listed listed'
    have unshared := List.find?_eq_none.1 (Option.map_eq_none_iff.1 faultless) r listed'
    simp [listed] at unshared
  | exist x f | forAll x f => simpa [fault?, Independent] using faultless

/-- What a closed formula's outermost step is refused for is a failed test: only an
open atom is refused for anything else. -/
theorem reports_of_fault? {error : Unsupported} (closed : f.freeOccurrences = [])
    (fault : f.fault? = some error) : ¬ f.Independent ∧ Reports f f error := by
  cases f with
  | truth => cases fault
  | atom a =>
    have noVars : a.vars = [] := closed
    simp [fault?, noVars] at fault
  | not f => cases fault
  | and f g | or f g =>
    obtain ⟨r, found, rfl⟩ := Option.map_eq_some_iff.1 fault
    have least := sharedRelation?_eq_some found
    exact ⟨fun apart => apart r least.1.1 least.1.2, r, least, rfl⟩
  | exist x f | forAll x f =>
    rw [fault?] at fault
    split at fault <;> rename_i separates
    · cases fault
    · exact ⟨separates, (Option.some.inj fault).symm⟩

end Formula

/-! ## The whole formula -/

namespace Plan

variable {domain : List Name} {f g : Formula} {x c : Name}

/-- Both sides of a connective are planned where neither fails. -/
theorem exists_sides (join : Plan Formula → Plan Formula → Plan Formula)
    (drawnF : ∃ plan, ofFormula domain f = .ok plan)
    (drawnG : ∃ plan, ofFormula domain g = .ok plan) :
    ∃ plan, (do
      let left ← ofFormula domain f
      let right ← ofFormula domain g
      return join left right) = .ok plan := by
  obtain ⟨left, drawnLeft⟩ := drawnF
  obtain ⟨right, drawnRight⟩ := drawnG
  exact ⟨join left right, by rw [drawnLeft, drawnRight]; rfl⟩

/-- Every branch of a quantifier passes where its body does. -/
theorem exists_branches (combine : List (Plan Formula) → Plan Formula)
    (closed : f.freeOccurrences.filter (· ≠ x) = []) (passes : f.firstDependent = none)
    (ih : ∀ c, (f.substitute x c).freeOccurrences = [] → (f.substitute x c).firstDependent = none →
      ∃ plan, ofFormula domain (f.substitute x c) = .ok plan) :
    ∃ plan, (domain.mapM fun c => ofFormula domain (f.substitute x c)).map combine = .ok plan := by
  have each : ∀ c ∈ domain, ∃ plan, ofFormula domain (f.substitute x c) = .ok plan :=
    fun c _ => ih c ((Formula.freeOccurrences_substitute x c f).trans closed)
      (by rw [Formula.firstDependent_substitute, passes, Option.map_none])
  obtain ⟨branches, drawn⟩ := exists_mapM_eq_ok each
  exact ⟨combine branches, by rw [drawn]; rfl⟩

/-- Where every node passes, no branch of any quantifier fails. -/
theorem exists_ofFormula (domain : List Name) (closed : f.freeOccurrences = [])
    (passes : f.firstDependent = none) : ∃ plan, ofFormula domain f = .ok plan := by
  induction f using Plan.ofFormula.induct with
  | case1 f error fault =>
    rw [Formula.firstDependent_of_dependent (Formula.reports_of_fault? closed fault).1] at passes
    cases passes
  | case2 _ => exact ⟨_, ofFormula_truth⟩
  | case3 a fine => exact ⟨_, ofFormula_atom fine⟩
  | case4 f fine ih =>
    rw [Formula.firstDependent_not] at passes
    obtain ⟨plan, drawn⟩ := ih closed passes
    exact ⟨_, by rw [ofFormula_not, drawn]; rfl⟩
  | case5 f g fine ihf ihg =>
    obtain ⟨closedF, closedG⟩ := List.append_eq_nil_iff.1 closed
    rw [Formula.firstDependent_and (Formula.independent_of_fault?_eq_none fine),
      Option.or_eq_none_iff] at passes
    rw [ofFormula_and fine]
    exact exists_sides _ (ihf closedF passes.1) (ihg closedG passes.2)
  | case6 f g fine ihf ihg =>
    obtain ⟨closedF, closedG⟩ := List.append_eq_nil_iff.1 closed
    rw [Formula.firstDependent_or (Formula.independent_of_fault?_eq_none fine),
      Option.or_eq_none_iff] at passes
    rw [ofFormula_or fine]
    exact exists_sides _ (ihf closedF passes.1) (ihg closedG passes.2)
  | case7 x f fine ih =>
    rw [Formula.firstDependent_exist (Formula.independent_of_fault?_eq_none fine),
      Option.map_eq_none_iff] at passes
    rw [ofFormula_exist fine]
    exact exists_branches _ closed passes ih
  | case8 x f fine ih =>
    rw [Formula.firstDependent_forAll (Formula.independent_of_fault?_eq_none fine),
      Option.map_eq_none_iff] at passes
    rw [ofFormula_forAll fine]
    exact exists_branches _ closed passes ih

/-- The first failure below a quantifier is the first failure of the body at the
least constant, and shows the same there. -/
theorem reports_branch {outer : List Name} {node : Formula} {error : Unsupported}
    (reported : Formula.Reports
      ((if x ∈ outer then node else node.substitute x c).ground c outer)
      (if x ∈ outer then node else node.substitute x c) error) :
    Formula.Reports (node.ground c (x :: outer)) node error := by
  split at reported <;> rename_i bound
  · rwa [Formula.ground_cons_of_mem bound]
  · rwa [Formula.reports_substitute] at reported

/-- A formula's plan fails as the first node that fails its test is reported, with
the domain's first constant for the names bound around the node. -/
def FailsFirst (c : Name) (rest : List Name) (f : Formula) : Prop :=
  ∀ outer node, f.firstDependent = some (outer, node) →
    ∃ error, ofFormula (c :: rest) f = .error error ∧
      Formula.Reports (node.ground c outer) node error

section FailsFirst

variable {rest outer : List Name} {node : Formula}

/-- Of the two sides of a connective the left fails first, or passes. -/
theorem sides_error (join : Plan Formula → Plan Formula → Plan Formula)
    (closedF : f.freeOccurrences = []) (failsF : FailsFirst c rest f) (failsG : FailsFirst c rest g)
    (first : f.firstDependent.or g.firstDependent = some (outer, node)) :
    ∃ error, (do
      let left ← ofFormula (c :: rest) f
      let right ← ofFormula (c :: rest) g
      return join left right) = .error error ∧
        Formula.Reports (node.ground c outer) node error := by
  rcases Option.or_eq_some_iff.1 first with inLeft | ⟨leftPasses, inRight⟩
  · obtain ⟨error, failed, reported⟩ := failsF outer node inLeft
    exact ⟨error, by rw [failed]; rfl, reported⟩
  · obtain ⟨left, drawnLeft⟩ := exists_ofFormula (c :: rest) closedF leftPasses
    obtain ⟨error, failed, reported⟩ := failsG outer node inRight
    exact ⟨error, by rw [drawnLeft, failed]; rfl, reported⟩

/-- The first branch of a quantifier fails where its body does, so that no branch
before it could have failed. -/
theorem branches_error (combine : List (Plan Formula) → Plan Formula)
    (fails : FailsFirst c rest (f.substitute x c))
    (first : (f.firstDependent.map fun (outer, node) => (x :: outer, node)) = some (outer, node)) :
    ∃ error, ((c :: rest).mapM fun c' => ofFormula (c :: rest) (f.substitute x c')).map combine =
        .error error ∧ Formula.Reports (node.ground c outer) node error := by
  obtain ⟨⟨outer, node⟩, firstInBody, ⟨⟩⟩ := Option.map_eq_some_iff.1 first
  obtain ⟨error, failed, reported⟩ := fails _ _
    (by rw [Formula.firstDependent_substitute, firstInBody, Option.map_some])
  exact ⟨error, by rw [List.mapM_cons, failed]; rfl, reports_branch reported⟩

/-- **The first node that fails its test is the one reported.** By induction on
planning. -/
theorem failsFirst (c : Name) (rest : List Name) (closed : f.freeOccurrences = []) :
    FailsFirst c rest f := by
  induction f using Plan.ofFormula.induct with
  | case1 f error fault =>
    obtain ⟨dependent, reported⟩ := Formula.reports_of_fault? closed fault
    intro outer node first
    rw [Formula.firstDependent_of_dependent dependent] at first
    cases first
    exact ⟨error, ofFormula_of_fault fault, reported⟩
  | case2 _ => exact fun _ _ first => nomatch first
  | case3 a fine => exact fun _ _ first => nomatch first
  | case4 f fine ih =>
    intro outer node first
    rw [Formula.firstDependent_not] at first
    obtain ⟨error, failed, reported⟩ := ih closed outer node first
    exact ⟨error, by rw [ofFormula_not, failed]; rfl, reported⟩
  | case5 f g fine ihf ihg =>
    obtain ⟨closedF, closedG⟩ := List.append_eq_nil_iff.1 closed
    intro outer node first
    rw [Formula.firstDependent_and (Formula.independent_of_fault?_eq_none fine)] at first
    rw [ofFormula_and fine]
    exact sides_error _ closedF (ihf closedF) (ihg closedG) first
  | case6 f g fine ihf ihg =>
    obtain ⟨closedF, closedG⟩ := List.append_eq_nil_iff.1 closed
    intro outer node first
    rw [Formula.firstDependent_or (Formula.independent_of_fault?_eq_none fine)] at first
    rw [ofFormula_or fine]
    exact sides_error _ closedF (ihf closedF) (ihg closedG) first
  | case7 x f fine ih =>
    intro outer node first
    rw [Formula.firstDependent_exist (Formula.independent_of_fault?_eq_none fine)] at first
    rw [ofFormula_exist fine]
    exact branches_error _ (ih c ((Formula.freeOccurrences_substitute x c f).trans closed)) first
  | case8 x f fine ih =>
    intro outer node first
    rw [Formula.firstDependent_forAll (Formula.independent_of_fault?_eq_none fine)] at first
    rw [ofFormula_forAll fine]
    exact branches_error _ (ih c ((Formula.freeOccurrences_substitute x c f).trans closed)) first

end FailsFirst

end Plan

/-- The least member of a set stands first in it. -/
theorem NameSet.eq_cons_of_least {set : NameSet} {c : Name} (increasing : Increasing set)
    (listed : c ∈ set) (least : ∀ d ∈ set, c ≤ d) : ∃ rest, set = c :: rest := by
  cases set with
  | nil => cases listed
  | cons first rest =>
    rcases List.mem_cons.1 listed with rfl | later
    · exact ⟨rest, rfl⟩
    · have before := (List.pairwise_cons.1 increasing).1 c later
      exact absurd before (String.not_lt.2 (least first List.mem_cons_self))

namespace Formula

variable {P : Type} [Arithmetic P]

/-- **Acceptance is read off the formula as written.** Over a domain with a least
constant, a closed formula is accepted exactly when every node passes its test,
and otherwise the first node in pre-order that does not is reported, with that
constant for the names bound around it. -/
theorem evaluate_closed (f : Formula) (s : Store P) (trace : Bool) (closed : f.isClosed = true)
    (c : Name) (listed : c ∈ s.domain) (least : ∀ d ∈ s.domain, c ≤ d) :
    ((∃ evaluation, f.evaluate s { trace } = .ok evaluation) ↔
        ∀ entry ∈ f.nodes, entry.2.Independent) ∧
      ∀ outer node, f.firstDependent = some (outer, node) →
        ∃ error, f.evaluate s { trace } = .error error ∧
          Reports (node.ground c outer) node error := by
  have noFree : f.freeOccurrences = [] := List.isEmpty_iff.1 closed
  have planned : f.plan s.domain = Plan.ofFormula s.domain f := by
    rw [Formula.plan, freeVars, noFree]
    rfl
  have fails : ∀ outer node, f.firstDependent = some (outer, node) →
      ∃ error, f.evaluate s { trace } = .error error ∧
        Reports (node.ground c outer) node error := by
    intro outer node first
    obtain ⟨rest, domain⟩ := NameSet.eq_cons_of_least (NameSet.increasing_ofList _) listed least
    obtain ⟨error, failed, reported⟩ := Plan.failsFirst c rest noFree outer node first
    refine ⟨error, ?_, reported⟩
    rw [evaluate, planned, Store.domain, domain, failed]
    rfl
  refine ⟨⟨fun ⟨evaluation, accepted⟩ => ?_, fun passes => ?_⟩, fails⟩
  · rw [← firstDependent_eq_none_iff, Option.eq_none_iff_forall_ne_some]
    rintro ⟨outer, node⟩ first
    obtain ⟨error, failed, -⟩ := fails outer node first
    rw [accepted] at failed
    cases failed
  · obtain ⟨plan, drawn⟩ :=
      Plan.exists_ofFormula s.domain noFree (firstDependent_eq_none_iff.2 passes)
    exact ⟨_, by rw [evaluate, planned, drawn]; rfl⟩

/-- `∃x (R(x) ∧ ¬∃y (S(x, y) ∨ S(x, b)))`. The inner quantifier comes before the
disjunction, whose sides both read `S`. -/
def unseparated : Formula :=
  .exist "x" (.and (.atom ⟨"R", [.var "x"]⟩)
    (.not (.exist "y" (.or (.atom ⟨"S", [.var "x", .var "y"]⟩)
      (.atom ⟨"S", [.var "x", .const "b"]⟩)))))

/-- The failing quantifier is reported inside the first branch of the outer one. -/
theorem evaluate_closed_unseparated :
    unseparated.isClosed = true ∧ "a" ∈ Store.pair.domain ∧ (∀ d ∈ Store.pair.domain, "a" ≤ d) ∧
      unseparated.evaluate Store.pair {} = .error (.notSeparator "y"
        (.exist "y" (.or (.atom ⟨"S", [.const "a", .var "y"]⟩)
          (.atom ⟨"S", [.const "a", .const "b"]⟩)))) := by
  have closed : unseparated.isClosed = true := by decide
  have listed : "a" ∈ Store.pair.domain := by decide +kernel
  have least : ∀ d ∈ Store.pair.domain, "a" ≤ d := by decide +kernel
  obtain ⟨-, fails⟩ := evaluate_closed unseparated Store.pair false closed "a" listed least
  obtain ⟨error, failed, reported⟩ := fails ["x"] (.exist "y"
    (.or (.atom ⟨"S", [.var "x", .var "y"]⟩) (.atom ⟨"S", [.var "x", .const "b"]⟩)))
    (by decide +kernel)
  refine ⟨closed, listed, least, failed.trans (congrArg Except.error (reported.trans ?_))⟩
  decide +kernel

end Formula

end SafePlan
