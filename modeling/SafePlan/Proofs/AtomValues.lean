/-
# SafePlan.Proofs.AtomValues — the value of some atoms

The value of the plan of some atoms, without the plan: one equation for each
rule of the decomposition. Where the atoms are `Decomposable` there is always a
rule, and what holds of a rule's atoms when it holds of what the rule makes of
them holds of all (`Decomposable.induct`). So what is to be said about the
probability of a hierarchical query is said about these equations
(`Query.evaluate_eq_valueOfAtoms`).
-/
import SafePlan.Proofs.Hierarchical

set_option autoImplicit false

namespace SafePlan

variable {vars : List Name} {atoms : List Atom}

/-- Induction along the decomposition, for atoms that it never fails on. -/
@[elab_as_elim]
theorem Decomposable.induct {motive : (atoms : List Atom) → Decomposable vars atoms → Prop}
    (ground : ∀ atoms fits, Decomposition.of vars atoms = .ok .ground → motive atoms fits)
    (split : ∀ atoms fits,
      Decomposition.of vars atoms = .ok (.split (groups everyVar atoms)) →
      (∀ part, ∀ listed : part ∈ groups everyVar atoms,
        motive part (fits.of_mem_groups listed)) → motive atoms fits)
    (eliminate : ∀ atoms fits x, Decomposition.of vars atoms = .ok (.eliminate x) →
      (∀ c, motive (Atom.substituteAll x c atoms) (fits.substitute x c)) → motive atoms fits)
    (atoms : List Atom) (fits : Decomposable vars atoms) : motive atoms fits := by
  induction atoms using Plan.ofAtoms.induct vars with
  | case1 atoms unsupported rule =>
    obtain ⟨rule', fine⟩ := Decomposition.exists_rule fits
    rw [rule] at fine
    cases fine
  | case2 atoms rule => exact ground atoms fits rule
  | case3 atoms parts rule ih =>
    obtain ⟨rfl, -⟩ := Decomposition.parts_eq_groups rule
    exact split atoms fits rule fun part listed => ih ⟨part, listed⟩ (fits.of_mem_groups listed)
  | case4 atoms x rule ih => exact eliminate atoms fits x rule fun c => ih c (fits.substitute x c)

namespace Plan

variable {P : Type} [Arithmetic P] {chance : Fact → P} {domain : List Name} {x : Name}

/-- The value of the plan of some atoms; where there is none, it is no matter. -/
def valueOfAtoms (chance : Fact → P) (vars domain : List Name) (atoms : List Atom) : P :=
  match ofAtoms vars domain atoms with
  | .ok plan => plan.value chance
  | .error _ => Arithmetic.zero

theorem valueOfAtoms_eq {plan : Plan (List Atom)} (drawn : ofAtoms vars domain atoms = .ok plan) :
    valueOfAtoms chance vars domain atoms = plan.value chance := by
  rw [valueOfAtoms, drawn]

/-! ## One equation for each rule -/

theorem valueOfAtoms_ground (rule : Decomposition.of vars atoms = .ok .ground) :
    valueOfAtoms chance vars domain atoms
      = Arithmetic.all (atoms.map fun a => chance a.fact) := by
  rw [valueOfAtoms_eq (ofAtoms_of_ground rule), value, List.map_map]
  rfl

theorem valueOfAtoms_split (fits : Decomposable vars atoms)
    (rule : Decomposition.of vars atoms = .ok (.split (groups everyVar atoms))) :
    valueOfAtoms chance vars domain atoms
      = Arithmetic.all ((groups everyVar atoms).map (valueOfAtoms chance vars domain)) := by
  obtain ⟨plan, drawn⟩ := exists_ofAtoms domain fits
  rw [valueOfAtoms_eq drawn]
  rw [ofAtoms_of_split rule] at drawn
  obtain ⟨plans, made, rfl⟩ := map_eq_ok_iff.1 drawn
  rw [value, values_eq_map]
  refine congrArg Arithmetic.all (map_results (forall₂_of_mapM made ?_))
  exact fun part _ plan drawnPart => (valueOfAtoms_eq drawnPart).symm

theorem valueOfAtoms_eliminate (fits : Decomposable vars atoms)
    (rule : Decomposition.of vars atoms = .ok (.eliminate x)) :
    valueOfAtoms chance vars domain atoms
      = Arithmetic.any (domain.map fun c =>
          valueOfAtoms chance vars domain (Atom.substituteAll x c atoms)) := by
  obtain ⟨plan, drawn⟩ := exists_ofAtoms domain fits
  rw [valueOfAtoms_eq drawn]
  rw [ofAtoms_of_eliminate rule] at drawn
  obtain ⟨plans, made, rfl⟩ := map_eq_ok_iff.1 drawn
  rw [value, values_eq_map]
  refine congrArg Arithmetic.any (map_results (forall₂_of_mapM made ?_))
  exact fun c _ plan drawnBranch => (valueOfAtoms_eq drawnBranch).symm

end Plan

/-- What evaluation of a query that passes the check comes to. -/
theorem Query.evaluate_eq_valueOfAtoms {P : Type} [Arithmetic P] (q : Query)
    (hierarchical : q.checkHierarchical = .ok ()) (s : Store P) (options : Options) :
    ∃ evaluation, q.evaluate s options = .ok evaluation ∧
      evaluation.probability = Plan.valueOfAtoms s.chance q.vars s.domain q.atoms := by
  have fits := q.decomposable (q.checkHierarchical_eq_ok_iff.1 hierarchical)
  obtain ⟨plan, drawn⟩ := Plan.exists_ofAtoms s.domain fits
  refine ⟨plan.evaluate q.displayPart s options, ?_, ?_⟩
  · rw [evaluate, q.plan_eq s.domain hierarchical, drawn]
    rfl
  · exact (Plan.valueOfAtoms_eq drawn).symm

end SafePlan
