/-
# SafePlan.Proofs.Obstruction — the check rejects nothing that could be evaluated

The converse of what `SafePlan.Proofs.Hierarchical` says of the check. Where two
variables cross, neither drawing a plan over constants nor compiling succeeds
without the check either: a crossing outlasts every step. Its atoms are linked,
so they stay in one group; and a variable that is in every atom is neither of
the two, so it can be replaced or bound without touching them. The recursion
ends, and it cannot end well while two variables are left in an atom; so it
comes to atoms without a root.

So a query passes the check exactly when every step has a rule
(`Query.rejects_iff_noRoot`).
-/
import SafePlan.Proofs.Compilation
import SafePlan.Proofs.Hierarchical
import SafePlan.Proofs.Recording

set_option autoImplicit false

namespace SafePlan

/-! ## A crossing outlasts every step -/

namespace Crossing

variable {atoms : List Atom} {x y r : Name}

/-- A variable in every atom crosses none. -/
theorem left_ne (crossing : Crossing atoms x y) (everywhere : ∀ a ∈ atoms, r ∈ a.vars) : x ≠ r := by
  rintro rfl
  obtain ⟨c, listed, -, missing⟩ := crossing.right
  exact missing (everywhere c listed)

theorem ne_singleton (crossing : Crossing atoms x y) (a : Atom) : atoms ≠ [a] := by
  rintro rfl
  obtain ⟨b, listedB, -, yInB⟩ := crossing.together
  obtain ⟨c, listedC, -, yNotC⟩ := crossing.left
  rw [List.mem_singleton.1 listedB] at yInB
  rw [List.mem_singleton.1 listedC] at yNotC
  exact yNotC yInB

end Crossing

/-! ## Atoms without a root -/

/-- The attempt comes to atoms of which no variable is in all, and reports them. -/
def NoRoot {α : Type} (vars : List Name) (attempt : Except Unsupported α) : Prop :=
  ∃ part, attempt = .error (.noRootVariable (Query.occurring vars part) part)

/-- It succeeds, or it is for want of a root that it does not. -/
def OkOrNoRoot {α : Type} (vars : List Name) (attempt : Except Unsupported α) : Prop :=
  (∃ a, attempt = .ok a) ∨ NoRoot vars attempt

section Attempts

variable {α β : Type} {vars : List Name}

theorem NoRoot.not_ok {attempt : Except Unsupported α} (fails : NoRoot vars attempt) (a : α) :
    attempt ≠ .ok a := by
  obtain ⟨part, failed⟩ := fails
  rw [failed]
  nofun

theorem noRoot_map_iff {attempt : Except Unsupported α} {g : α → β} :
    NoRoot vars (attempt.map g) ↔ NoRoot vars attempt := by
  simp only [NoRoot, map_eq_error_iff]

theorem OkOrNoRoot.map {attempt : Except Unsupported α} (either : OkOrNoRoot vars attempt)
    (g : α → β) : OkOrNoRoot vars (attempt.map g) :=
  either.imp exists_map_eq_ok_iff.2 noRoot_map_iff.2

theorem OkOrNoRoot.mapM {attempt : α → Except Unsupported β} {inputs : List α}
    (each : ∀ a ∈ inputs, OkOrNoRoot vars (attempt a)) :
    OkOrNoRoot vars (inputs.mapM attempt) := by
  cases outcome : inputs.mapM attempt with
  | ok results => exact .inl ⟨results, rfl⟩
  | error unsupported =>
    obtain ⟨a, listed, failed⟩ := exists_error_of_mapM outcome
    have either := each a listed
    rw [failed] at either
    obtain ⟨b, ⟨⟩⟩ | ⟨part, ⟨⟩⟩ := either
    exact .inr ⟨part, rfl⟩

end Attempts

namespace Decomposition

variable {vars : List Name} {atoms : List Atom}

theorem eq_noRootVariable {unsupported : Unsupported}
    (fails : of vars atoms = .error unsupported) :
    unsupported = .noRootVariable (Query.occurring vars atoms) atoms := by
  unfold of at fails
  split at fails
  · cases fails
  · split at fails
    · cases fails
    · split at fails <;> cases fails
      rfl

end Decomposition

/-! ## Plans -/

namespace Plan

variable {vars domain : List Name} {atoms : List Atom} {x y : Name}

theorem okOrNoRoot_ofAtoms (vars domain : List Name) (atoms : List Atom) :
    OkOrNoRoot vars (ofAtoms vars domain atoms) := by
  induction atoms using ofAtoms.induct vars with
  | case1 atoms unsupported rule =>
    rw [ofAtoms_of_error rule, Decomposition.eq_noRootVariable rule]
    exact .inr ⟨atoms, rfl⟩
  | case2 atoms rule => exact .inl ⟨_, ofAtoms_of_ground rule⟩
  | case3 atoms parts rule ih =>
    rw [ofAtoms_of_split rule]
    exact (OkOrNoRoot.mapM fun part listed => ih ⟨part, listed⟩).map _
  | case4 atoms x rule ih =>
    rw [ofAtoms_of_eliminate rule]
    exact (OkOrNoRoot.mapM fun c _ => ih c).map _

/-- Over a domain with constants there is no plan where two variables cross. -/
theorem ofAtoms_ne_ok (crossing : Crossing atoms x y) (inhabited : domain ≠ [])
    (plan : Plan (List Atom)) : ofAtoms vars domain atoms ≠ .ok plan := by
  induction atoms using ofAtoms.induct vars generalizing plan with
  | case1 atoms unsupported rule =>
    rw [ofAtoms_of_error rule]
    intro drawn
    cases drawn
  | case2 atoms rule =>
    -- atoms without variables hold none that cross
    obtain ⟨a, listed, occurs, -⟩ := crossing.together
    have ground := Decomposition.isGround_of_ground rule a listed
    rw [a.isGround_iff.1 ground] at occurs
    cases occurs
  | case3 atoms parts rule ih =>
    obtain ⟨rfl, -⟩ := Decomposition.parts_eq_groups rule
    obtain ⟨group, listed, inGroup⟩ : ∃ group ∈ groups everyVar atoms, Crossing group x y :=
      crossing.exists_part (parted_groups everyVar atoms) rfl rfl
    rw [ofAtoms_of_split rule]
    intro drawn
    obtain ⟨plans, drawnAll, -⟩ := map_eq_ok_iff.1 drawn
    obtain ⟨part, drawnPart⟩ := exists_ok_of_mapM drawnAll listed
    exact ih ⟨group, listed⟩ inGroup part drawnPart
  | case4 atoms r rule ih =>
    -- the branch at the first constant has the crossing still
    obtain ⟨first, others, rfl⟩ := List.exists_cons_of_ne_nil inhabited
    obtain ⟨-, everywhere⟩ := Decomposition.mentions_of_eliminate rule
    have outlasts : Crossing (Atom.substituteAll r first atoms) x y :=
      crossing_substitute_iff.2
        ⟨crossing.left_ne everywhere, crossing.symm.left_ne everywhere, crossing⟩
    rw [ofAtoms_of_eliminate rule]
    intro drawn
    obtain ⟨plans, drawnAll, -⟩ := map_eq_ok_iff.1 drawn
    obtain ⟨part, drawnPart⟩ := exists_ok_of_mapM drawnAll List.mem_cons_self
    exact ih first outlasts part drawnPart

theorem noRoot_of_crossing (vars : List Name) (crossing : Crossing atoms x y)
    (inhabited : domain ≠ []) : NoRoot vars (ofAtoms vars domain atoms) :=
  (okOrNoRoot_ofAtoms vars domain atoms).resolve_left fun ⟨plan, drawn⟩ =>
    ofAtoms_ne_ok crossing inhabited plan drawn

end Plan

/-! ## Formulas -/

namespace Formula

variable {vars bound : List Name} {atoms : List Atom} {x y : Name}

theorem okOrNoRoot_ofAtoms (vars bound : List Name) (atoms : List Atom) :
    OkOrNoRoot vars (ofAtoms vars bound atoms) := by
  induction bound, atoms using ofAtoms.induct vars with
  | case1 bound atoms single a leaf => exact .inl ⟨_, ofAtoms_of_leaf single leaf⟩
  | case2 bound atoms single noLeaf x root ih =>
    rw [ofAtoms_of_root single noLeaf root]
    exact ih.map _
  | case3 bound atoms single noLeaf noRoot =>
    exact .inr ⟨atoms, ofAtoms_of_noRoot single noLeaf noRoot⟩
  | case4 bound atoms several ih =>
    rw [ofAtoms_of_groups several]
    exact (OkOrNoRoot.mapM fun part listed => ih ⟨part, listed⟩).map _

/-- There is no formula where two variables cross that are not yet bound. -/
theorem ofAtoms_ne_ok (crossing : Crossing atoms x y) (freeX : x ∉ bound) (freeY : y ∉ bound)
    (f : Formula) : ofAtoms vars bound atoms ≠ .ok f := by
  induction bound, atoms using ofAtoms.induct vars generalizing f with
  | case1 bound atoms single a leaf =>
    exact absurd (eq_singleton_of_leaf? leaf).1 (crossing.ne_singleton a)
  | case2 bound atoms single noLeaf r root ih =>
    -- the variable bound here is in every atom, so it is neither of the two
    obtain ⟨-, -, everywhere⟩ := root?_eq_some root
    have freeX' : x ∉ r :: bound :=
      List.not_mem_cons_of_ne_of_not_mem (crossing.left_ne everywhere) freeX
    have freeY' : y ∉ r :: bound :=
      List.not_mem_cons_of_ne_of_not_mem (crossing.symm.left_ne everywhere) freeY
    rw [ofAtoms_of_root single noLeaf root]
    intro made
    obtain ⟨body, madeBody, -⟩ := map_eq_ok_iff.1 made
    exact ih crossing freeX' freeY' body madeBody
  | case3 bound atoms single noLeaf noRoot =>
    rw [ofAtoms_of_noRoot single noLeaf noRoot]
    intro made
    cases made
  | case4 bound atoms several ih =>
    obtain ⟨group, listed, inGroup⟩ :=
      crossing.exists_part (parted_groups (unbound bound) atoms) (mem_unbound_iff.2 freeX)
        (mem_unbound_iff.2 freeY)
    rw [ofAtoms_of_groups several]
    intro made
    obtain ⟨fs, madeAll, -⟩ := map_eq_ok_iff.1 made
    obtain ⟨part, madePart⟩ := exists_ok_of_mapM madeAll listed
    exact ih ⟨group, listed⟩ inGroup freeX freeY part madePart

theorem noRoot_of_crossing (vars : List Name) (crossing : Crossing atoms x y) :
    NoRoot vars (ofAtoms vars [] atoms) :=
  (okOrNoRoot_ofAtoms vars [] atoms).resolve_left fun ⟨f, made⟩ =>
    ofAtoms_ne_ok crossing (by simp) (by simp) f made

end Formula

/-! ## Queries -/

namespace Query

theorem rejects_iff_exists_crossing (q : Query) :
    (∃ unsupported, q.checkHierarchical = .error unsupported) ↔ ∃ x y, Crossing q.atoms x y := by
  simp only [checkHierarchical_eq_error_iff]
  rw [← Option.isSome_iff_exists, Option.isSome_iff_ne_none, ne_eq,
    firstConflict?_eq_none_iff_uncrossed]
  push Not
  rfl

theorem passes_or_rejects (q : Query) :
    q.checkHierarchical = .ok () ∨ ∃ unsupported, q.checkHierarchical = .error unsupported := by
  cases q.checkHierarchical with
  | ok => exact .inl rfl
  | error unsupported => exact .inr ⟨unsupported, rfl⟩

/-- An attempt that a crossing obstructs, and that succeeds on what the rules can
take apart, fails for want of a root exactly where the check rejects. -/
theorem rejects_iff_of_obstructed (q : Query) {α : Type} {attempt : Except Unsupported α}
    (obstructed : ∀ x y, Crossing q.atoms x y → NoRoot q.vars attempt)
    (succeeds : Decomposable q.vars q.atoms → ∃ a, attempt = .ok a) :
    (∃ unsupported, q.checkHierarchical = .error unsupported) ↔ NoRoot q.vars attempt := by
  constructor
  · intro rejects
    obtain ⟨x, y, crossing⟩ := q.rejects_iff_exists_crossing.1 rejects
    exact obstructed x y crossing
  · intro fails
    refine q.passes_or_rejects.resolve_left fun passes => ?_
    obtain ⟨a, fine⟩ := succeeds (q.decomposable (q.checkHierarchical_eq_ok_iff.1 passes))
    exact fails.not_ok a fine

theorem rejects_iff_plan_noRoot (q : Query) {domain : List Name} (inhabited : domain ≠ []) :
    (∃ unsupported, q.checkHierarchical = .error unsupported) ↔
      NoRoot q.vars (Plan.ofAtoms q.vars domain q.atoms) :=
  q.rejects_iff_of_obstructed
    (fun _ _ crossing => Plan.noRoot_of_crossing q.vars crossing inhabited)
    (Plan.exists_ofAtoms domain)

theorem rejects_iff_formula_noRoot (q : Query) :
    (∃ unsupported, q.checkHierarchical = .error unsupported) ↔
      NoRoot q.vars (Formula.ofAtoms q.vars [] q.atoms) :=
  q.rejects_iff_of_obstructed (fun _ _ crossing => Formula.noRoot_of_crossing q.vars crossing)
    (Formula.exists_ofAtoms [])

/-- A query passes the check exactly when each step has a rule. -/
theorem passes_iff_rules (q : Query) :
    q.checkHierarchical = .ok () ↔ ∀ atoms, Decomposition.Reached q.vars q.atoms atoms →
      ∃ rule, Decomposition.of q.vars atoms = .ok rule := by
  constructor
  · intro passes atoms reached
    have fits := q.decomposable (q.checkHierarchical_eq_ok_iff.1 passes)
    exact Decomposition.exists_rule (Decomposition.decomposable_of_reached fits reached)
  · intro rules
    refine q.passes_or_rejects.resolve_right fun rejects => ?_
    -- one constant is enough for a branch under each variable
    have fails := (q.rejects_iff_plan_noRoot (List.cons_ne_nil "c" [])).1 rejects
    obtain ⟨plan, drawn⟩ := Plan.exists_ofAtoms_of_rules ["c"] .whole rules
    exact fails.not_ok plan drawn

/-- **The check rejects nothing that could be evaluated.** Without it, a query
that it rejects comes to atoms without a root: where its plan is drawn over any
constants, where it is evaluated in any store that has some, and where it is
compiled. Conversely nothing but a rejected query does. So the queries that pass
are those of which every part has a rule: facts alone, parts that share no
variable, or a variable in all of its atoms. -/
theorem rejects_iff_noRoot {P : Type} [Arithmetic P] (q : Query) :
    (∀ domain : List Name, domain ≠ [] →
      ((∃ unsupported, q.checkHierarchical = .error unsupported) ↔
        NoRoot q.vars (Plan.ofAtoms q.vars domain q.atoms))) ∧
    (∀ (s : Store P) (traced : Bool), s.domain ≠ [] →
      ((∃ unsupported, q.checkHierarchical = .error unsupported) ↔
        NoRoot q.vars ((passAtoms s traced q.vars 0 q.atoms).run []))) ∧
    ((∃ unsupported, q.checkHierarchical = .error unsupported) ↔
      NoRoot q.vars (Formula.ofAtoms q.vars [] q.atoms)) ∧
    (q.checkHierarchical = .ok () ↔ ∀ atoms, Decomposition.Reached q.vars q.atoms atoms →
      (∀ a ∈ atoms, a.vars = []) ∨ 1 < (groups everyVar atoms).length ∨
        ∃ x ∈ q.vars, ∀ a ∈ atoms, x ∈ a.vars) := by
  refine ⟨fun domain => q.rejects_iff_plan_noRoot, fun s traced inhabited => ?_,
    q.rejects_iff_formula_noRoot, ?_⟩
  · rw [q.rejects_iff_plan_noRoot inhabited, appends_passAtoms s traced q.vars 0 q.atoms [],
      noRoot_map_iff]
  · simp only [passes_iff_rules, Decomposition.exists_rule_iff]

/-- `x, y, z | A(), R(z, x), S(z, x, y), T(z, y)`. Two variables cross behind a
split and a third variable. -/
def buried : Query :=
  ⟨["x", "y", "z"],
    [⟨"A", []⟩, ⟨"R", [.var "z", .var "x"]⟩, ⟨"S", [.var "z", .var "x", .var "y"]⟩,
      ⟨"T", [.var "z", .var "y"]⟩],
    fault?_eq_none_iff.1 (by decide)⟩

theorem rejects_iff_noRoot_buried :
    buried.checkHierarchical = .error (.notHierarchical "x" "y" "S") ∧
    NoRoot buried.vars ((passAtoms Store.pair true buried.vars 0 buried.atoms).run []) ∧
    NoRoot buried.vars (Formula.ofAtoms buried.vars [] buried.atoms) := by
  have rejects : buried.checkHierarchical = .error (.notHierarchical "x" "y" "S") := by decide
  obtain ⟨-, passes, compiles, -⟩ := rejects_iff_noRoot (P := Rat) buried
  exact ⟨rejects, (passes Store.pair true (by decide)).1 ⟨_, rejects⟩, compiles.1 ⟨_, rejects⟩⟩

end Query

end SafePlan
