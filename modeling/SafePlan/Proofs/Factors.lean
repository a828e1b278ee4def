/-
# SafePlan.Proofs.Factors — parts that share no variable multiply

The decomposition splits atoms into groups, the finest parts between which no
variable is shared. The choice does not matter: a query can be parted in any way
that keeps its variables together (`Parted`), however coarse and however the
parts interleave. The parts then are queries of their own, hierarchical just
when the whole is, and over exact numbers their probabilities multiply to that of
the whole (`Query.evaluate_eq_prod_parts`).

The plan of a coarser part is not a piece of the plan of the whole, so the two
evaluations are compared by what they stand for: the plans of the parts, put
together, are a second plan for the same event (`Plan.renders_parts`).
-/
import SafePlan.Proofs.QueryLikelihood
import SafePlan.Proofs.Relevance

set_option autoImplicit false

namespace SafePlan

variable {vars : List Name} {atoms : List Atom} {parts : List (List Atom)}

/-- The parts cross no variables that the whole does not, and all that it does. -/
theorem Parted.crossing_iff (parted : Parted everyVar atoms parts) {x y : Name} :
    Crossing atoms x y ↔ ∃ part ∈ parts, Crossing part x y := by
  constructor
  · exact fun crossing => crossing.exists_part parted rfl rfl
  · rintro ⟨part, listed, crossing⟩
    exact crossing.mono (parted.subset listed)

/-- **Values of parts multiply.** Both sides are the likelihood of the same event. -/
theorem Plan.valueOfAtoms_eq_prod (parted : Parted everyVar atoms parts)
    (unrepeated : (atoms.map Atom.relation).Nodup) (fits : Decomposable vars atoms)
    (s : Store Rat) :
    valueOfAtoms s.chance vars s.domain atoms =
      (parts.map (valueOfAtoms s.chance vars s.domain)).prod := by
  obtain ⟨plan, drawn⟩ := exists_ofAtoms s.domain fits
  obtain ⟨plans, made⟩ : ∃ plans, parts.mapM (ofAtoms vars s.domain) = .ok plans :=
    exists_mapM_eq_ok fun part listed => exists_ofAtoms s.domain (fits.mono (parted.subset listed))
  have whole := renders_ofAtoms s.nodup_domain unrepeated drawn
  have joined := renders_parts parted unrepeated (forall₂_of_mapM made fun part listed _ =>
    renders_ofAtoms s.nodup_domain (parted.nodup_relations unrepeated listed))
  have values : plans.map (value s.chance) = parts.map (valueOfAtoms s.chance vars s.domain) :=
    map_results (forall₂_of_mapM made fun _ _ _ drawnPart => (valueOfAtoms_eq drawnPart).symm)
  calc valueOfAtoms s.chance vars s.domain atoms
      = plan.value s.chance := valueOfAtoms_eq drawn
    _ = s.likelihood (Satisfiable s.domain atoms) := whole.value_eq s
    _ = (Plan.combine .split atoms plans).value s.chance := (joined.value_eq s).symm
    _ = Arithmetic.all (plans.map (value s.chance)) := by rw [value, values_eq_map]; rfl
    _ = (parts.map (valueOfAtoms s.chance vars s.domain)).prod := by
      rw [Arithmetic.all_eq_prod, values]

namespace Query

/-- Some of a query's atoms make a query under the same declarations. -/
theorem Valid.part (valid : Valid vars atoms) (parted : Parted everyVar atoms parts)
    {part : List Atom} (listed : part ∈ parts) : Valid vars part where
  declaredOnce := valid.declaredOnce
  named a member := valid.named a (parted.subset listed member)
  unrepeated := parted.nodup_relations valid.unrepeated listed
  declared a member := valid.declared a (parted.subset listed member)
  unshadowed a member := valid.unshadowed a (parted.subset listed member)

theorem exists_makeAll (q : Query) (parted : Parted everyVar q.atoms parts) :
    ∃ queries, parts.mapM (make q.vars) = .ok queries ∧ queries.map Query.atoms = parts ∧
      ∀ query ∈ queries, query.vars = q.vars := by
  obtain ⟨queries, made⟩ : ∃ queries, parts.mapM (make q.vars) = .ok queries :=
    exists_mapM_eq_ok fun part listed => ⟨_, make_eq_ok ⟨q.vars, part, q.valid.part parted listed⟩⟩
  have lists := forall₂_of_mapM made fun _ _ _ madePart => lists_of_make madePart
  refine ⟨queries, made, ?_, fun query listed => ?_⟩
  · simpa using map_results (g := id) (lists.imp fun _ _ same => same.2)
  · obtain ⟨part, -, declared, -⟩ := exists_input lists listed
    exact declared

theorem checkHierarchical_eq_ok_iff_uncrossed (q : Query) :
    q.checkHierarchical = .ok () ↔ ∀ x y, ¬ Crossing q.atoms x y := by
  rw [checkHierarchical_eq_ok_iff, firstConflict?_eq_none_iff_uncrossed]

/-- **Parts that share no variable multiply, however they are chosen.** Each part
is a query under the declarations of the whole; the whole passes the check
exactly when every part does, and its probability in a store is then the product
of theirs. -/
theorem evaluate_eq_prod_parts (q : Query) (parts : List (List Atom))
    (parted : Parted everyVar q.atoms parts) :
    ∃ queries : List Query, parts.mapM (make q.vars) = .ok queries ∧
      queries.map Query.atoms = parts ∧ (∀ query ∈ queries, query.vars = q.vars) ∧
      (q.checkHierarchical = .ok () ↔ ∀ query ∈ queries, query.checkHierarchical = .ok ()) ∧
      (q.checkHierarchical = .ok () → ∀ (s : Store Rat) (options options' : Options),
        ∃ evaluation evaluations, q.evaluate s options = .ok evaluation ∧
          queries.mapM (·.evaluate s options') = .ok evaluations ∧
          evaluation.probability = (evaluations.map (·.probability)).prod) := by
  obtain ⟨queries, made, partsOf, declared⟩ := q.exists_makeAll parted
  have hierarchical_iff : q.checkHierarchical = .ok () ↔
      ∀ query ∈ queries, query.checkHierarchical = .ok () := by
    simp only [checkHierarchical_eq_ok_iff_uncrossed, parted.crossing_iff, ← partsOf,
      List.mem_map, exists_exists_and_eq_and, not_exists, not_and]
    exact ⟨fun uncrossed query listed x y => uncrossed x y query listed,
      fun uncrossed x y query listed => uncrossed query listed x y⟩
  refine ⟨queries, made, partsOf, declared, hierarchical_iff,
    fun hierarchical s options options' => ?_⟩
  obtain ⟨evaluation, drawn, value⟩ := q.evaluate_eq_valueOfAtoms hierarchical s options
  obtain ⟨evaluations, drawnAll, values⟩ : ∃ evaluations,
      queries.mapM (·.evaluate s options') = .ok evaluations ∧
        evaluations.map (·.probability) =
          queries.map fun query => Plan.valueOfAtoms s.chance q.vars s.domain query.atoms := by
    refine exists_mapM_of_values (List.forall₂_map_right_iff.2 (List.forall₂_same.2 ?_))
    intro query listed
    rw [← declared query listed]
    exact query.evaluate_eq_valueOfAtoms (hierarchical_iff.1 hierarchical query listed) s options'
  refine ⟨evaluation, evaluations, drawn, drawnAll, ?_⟩
  have fits := q.decomposable (q.checkHierarchical_eq_ok_iff.1 hierarchical)
  rw [value, values, Plan.valueOfAtoms_eq_prod parted q.valid.unrepeated fits s, ← partsOf,
    List.map_map]
  rfl

/-- `x, y, z | R(x), S(y, b), T(z)`. -/
def scattered : Query :=
  ⟨["x", "y", "z"],
    [⟨"R", [.var "x"]⟩, ⟨"S", [.var "y", .const "b"]⟩, ⟨"T", [.var "z"]⟩],
    fault?_eq_none_iff.1 (by decide)⟩

/-- The first and the last atom in one part, though no variable connects them. -/
def outerAndInner : List (List Atom) :=
  [[⟨"R", [.var "x"]⟩, ⟨"T", [.var "z"]⟩], [⟨"S", [.var "y", .const "b"]⟩]]

theorem evaluate_eq_prod_parts_scattered :
    Parted everyVar scattered.atoms outerAndInner ∧ scattered.checkHierarchical = .ok () ∧
      ∃ queries, outerAndInner.mapM (make scattered.vars) = .ok queries ∧
        ∃ evaluation evaluations, scattered.evaluate Store.crowded {} = .ok evaluation ∧
          queries.mapM (·.evaluate Store.crowded {}) = .ok evaluations ∧
          evaluation.probability = (evaluations.map (·.probability)).prod ∧
          evaluation.probability = 1 / 24 := by
  have parted : Parted everyVar scattered.atoms outerAndInner :=
    ⟨by decide, by simp [outerAndInner, Atom.vars, Term.var?]⟩
  have hierarchical : scattered.checkHierarchical = .ok () := by decide
  obtain ⟨queries, made, -, -, -, multiply⟩ := evaluate_eq_prod_parts scattered outerAndInner parted
  obtain ⟨evaluation, evaluations, drawn, drawnAll, product⟩ :=
    multiply hierarchical Store.crowded {} {}
  have computed :
      (scattered.evaluate Store.crowded {}).toOption.map (·.probability) = some (1 / 24) := by
    decide +kernel
  rw [drawn] at computed
  exact ⟨parted, hierarchical, queries, made, evaluation, evaluations, drawn, drawnAll, product,
    Option.some.inj computed⟩

end Query

end SafePlan
