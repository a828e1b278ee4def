/-
# SafePlan.Proofs.FormulaLikelihood — evaluation of formulas is exact

A formula that is accepted gets the likelihood that it is true, over exact
numbers. The two syntactic tests are what the proof rests on. Sides of a
connective that read no relation in common have no instance in common. And a
separator stands at the same positions in all atoms of one relation, so the body
at different constants has no instance in common either (`renders_branches`),
whatever is substituted later for the other variables. A quantifier that hides
the separator would leave atoms without a position for it, so none does.
-/
import SafePlan.Evaluation
import SafePlan.Proofs.Instances

set_option autoImplicit false

namespace SafePlan

/-! ## Plans of formulas -/

namespace Plan

variable {domain : List Name} {x : Name} {f g : Formula} {combination : Combination}
  {subject : Formula} {event : Event}

/-- Two sides without a relation in common, however they are combined. -/
theorem renders_sides {left right : Plan Formula} (σ : Assignment)
    (unshared : Formula.sharedRelation? f g = none)
    (rendersLeft : left.Renders f.atoms fun world => f.Holds domain world σ)
    (rendersRight : right.Renders g.atoms fun world => g.Holds domain world σ)
    (same : ∀ world, combination.holds [f.Holds domain world σ, g.Holds domain world σ] ↔
      event world) :
    (Plan.combine combination subject [left, right]).Renders (f.atoms ++ g.atoms) event := by
  refine .combine combination subject Formula.atoms
    (fun side world => side.Holds domain world σ) (.cons rendersLeft (.cons rendersRight .nil)) ?_ ?_
    same
  · exact List.pairwise_pair.2
      (unshared_of_relations (Formula.sharedRelation?_eq_none_iff.1 unshared))
  · intro side listed fact isInstance
    rcases List.mem_pair.1 listed with rfl | rfl
    · exact isInstance.mono (List.subset_append_left _ _)
    · exact isInstance.mono (List.subset_append_right _ _)

/-- The body of a separator at each constant, however the branches are combined. -/
theorem renders_branches {branches : List (Plan Formula)} (σ : Assignment)
    (distinct : domain.Nodup) (separates : f.isSeparator x = true)
    (outcome : List.Forall₂ (fun c branch => Renders (f.substitute x c).atoms
      (fun world => (f.substitute x c).Holds domain world σ) branch) domain branches)
    (same : ∀ world,
      combination.holds (domain.map fun c => f.Holds domain world (σ.set x c)) ↔ event world) :
    (Plan.combine combination subject branches).Renders f.atoms event := by
  obtain ⟨visible, -⟩ := Formula.isSeparator_iff.1 separates
  refine .combine combination subject (fun c => (f.substitute x c).atoms)
    (fun c world => (f.substitute x c).Holds domain world σ) outcome
    (distinct.imp (Formula.unshared_substitute separates)) ?_ ?_
  · intro c _ fact isInstance
    rw [Formula.atoms_substitute_of_visible visible] at isInstance
    exact isInstance.of_substituteAll
  · intro world
    simp only [Formula.holds_substitute]
    exact same world

/-- **The plan of a formula stands for its truth**, at any assignment. By
induction on how it is drawn: a quantifier's branches are formulas of their own. -/
theorem renders_ofFormula {plan : Plan Formula} (distinct : domain.Nodup)
    (drawn : Plan.ofFormula domain f = .ok plan) (σ : Assignment) :
    plan.Renders f.atoms fun world => f.Holds domain world σ := by
  induction f using Plan.ofFormula.induct generalizing plan with
  | case1 f unsupported fault =>
    rw [ofFormula_of_fault fault] at drawn
    cases drawn
  | case2 _ =>
    rw [ofFormula_truth] at drawn
    cases drawn
    refine ⟨.ground .nil, fun fact read => absurd read List.not_mem_nil, fun world => ?_⟩
    simp [Holds, Formula.Holds]
  | case3 a fine =>
    have ground : a.isGround = true := by
      rw [Atom.isGround_iff, ← List.head?_eq_none_iff]
      exact Option.map_eq_none_iff.1 fine
    rw [ofFormula_atom fine] at drawn
    cases drawn
    refine ⟨.lookup, fun fact read => ?_, fun world => ?_⟩
    · obtain rfl := List.mem_singleton.1 read
      exact ⟨a, List.mem_singleton_self a, σ, (a.factAt_of_isGround σ ground).symm⟩
    · rw [Holds, Formula.Holds, a.factAt_of_isGround σ ground]
  | case4 f fine ih =>
    rw [ofFormula_not] at drawn
    obtain ⟨part, made, rfl⟩ := map_eq_ok_iff.1 drawn
    have renders := ih made
    exact ⟨.negate renders.safe, renders.instances, fun world => not_congr (renders.holds world)⟩
  | case5 f g fine ihf ihg =>
    rw [ofFormula_and fine] at drawn
    obtain ⟨left, madeLeft, drawnRight⟩ := bind_eq_ok_iff.1 drawn
    obtain ⟨right, madeRight, ⟨⟩⟩ := bind_eq_ok_iff.1 drawnRight
    refine renders_sides σ (Option.map_eq_none_iff.1 fine) (ihf madeLeft) (ihg madeRight) ?_
    intro world
    rw [Combination.holds, List.forall_mem_cons, List.forall_mem_singleton, Formula.Holds]
  | case6 f g fine ihf ihg =>
    rw [ofFormula_or fine] at drawn
    obtain ⟨left, madeLeft, drawnRight⟩ := bind_eq_ok_iff.1 drawn
    obtain ⟨right, madeRight, ⟨⟩⟩ := bind_eq_ok_iff.1 drawnRight
    refine renders_sides σ (Option.map_eq_none_iff.1 fine) (ihf madeLeft) (ihg madeRight) ?_
    intro world
    simp only [Combination.holds, List.exists_mem_cons_iff, List.not_mem_nil, false_and, exists_false,
      or_false, Formula.Holds]
  | case7 x f fine ih =>
    have separates : f.isSeparator x = true := by simpa [Formula.fault?] using fine
    rw [ofFormula_exist fine] at drawn
    obtain ⟨branches, made, rfl⟩ := map_eq_ok_iff.1 drawn
    refine renders_branches (f := f) σ distinct separates
      (forall₂_of_mapM made fun c _ _ => ih c) ?_
    intro world
    rw [Combination.holds_eliminate, Formula.Holds]
  | case8 x f fine ih =>
    have separates : f.isSeparator x = true := by simpa [Formula.fault?] using fine
    rw [ofFormula_forAll fine] at drawn
    obtain ⟨branches, made, rfl⟩ := map_eq_ok_iff.1 drawn
    refine renders_branches (f := f) σ distinct separates
      (forall₂_of_mapM made fun c _ _ => ih c) ?_
    intro world
    rw [Combination.holds_universal, Formula.Holds]

end Plan

/-! ## Formulas -/

namespace Formula

/-- **Evaluation of accepted formulas is exact.** The probability is the weight
of the possible worlds in which the formula is true. It is closed, so that the
assignment does not matter. -/
theorem accepted_eq_likelihood (f : Formula) (s : Store Rat) (options : Options)
    (evaluation : Evaluation Rat) (accepted : f.evaluate s options = .ok evaluation)
    (σ : Assignment) :
    evaluation.probability = s.likelihood fun world => f.Holds s.domain world σ := by
  obtain ⟨plan, drawn, ⟨⟩⟩ := bind_eq_ok_iff.1 accepted
  have drawnClosed : Plan.ofFormula s.domain f = .ok plan := by
    rw [Formula.plan] at drawn
    split at drawn
    · cases drawn
    · exact drawn
  exact (Plan.renders_ofFormula s.nodup_domain drawnClosed σ).value_eq s

/-- `∃x (R(x) ∧ ¬∃y S(x, y))`. -/
def stranded : Formula :=
  .exist "x" (.and (.atom ⟨"R", [.var "x"]⟩)
    (.not (.exist "y" (.atom ⟨"S", [.var "x", .var "y"]⟩))))

/-- One stored fact has to be present and the other absent. -/
theorem accepted_stranded :
    ∃ evaluation, stranded.evaluate Store.pair {} = .ok evaluation ∧
      evaluation.probability = 1 / 3 ∧
      evaluation.probability =
        Store.pair.likelihood fun world => stranded.Holds Store.pair.domain world id := by
  have computed : (stranded.evaluate Store.pair {}).toOption.map (·.probability) = some (1 / 3) := by
    decide +kernel
  cases accepted : stranded.evaluate Store.pair {} with
  | error unsupported =>
    rw [accepted] at computed
    cases computed
  | ok evaluation =>
    rw [accepted] at computed
    have exact := accepted_eq_likelihood stranded Store.pair {} evaluation accepted id
    exact ⟨evaluation, rfl, Option.some.inj computed, exact⟩

end Formula

end SafePlan
