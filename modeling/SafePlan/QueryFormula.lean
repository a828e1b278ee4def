/-
# SafePlan.QueryFormula — a hierarchical query as a formula

The formula of a query has each quantifier pushed down to the atoms that use
its variable: `x, y | R(x, y), S(x), T(a)` becomes `(∃x (∃y R(x, y) ∧ S(x)) ∧ T(a))`.
It follows the same decomposition as the query's plan, once and without a
domain: a variable that the plan would replace by constants is bound instead,
and bound variables no longer link atoms.
-/
import SafePlan.Components
import SafePlan.Hierarchy

set_option autoImplicit false

namespace SafePlan

namespace Formula

/-- The variables that are not yet bound. -/
def unbound (bound : List Name) : Name → Bool := fun x => !bound.contains x

/-- The first of the variables that is unbound and occurs in every atom. -/
def root? (vars bound : List Name) (atoms : List Atom) : Option Name :=
  vars.find? fun x => unbound bound x && atoms.all (·.mentions x)

theorem weight_lt_of_root? {vars bound : List Name} {atoms : List Atom} {x : Name}
    (single : (groups (unbound bound) atoms).length = 1)
    (found : root? vars bound atoms = some x) :
    weight (unbound (x :: bound)) atoms < weight (unbound bound) atoms := by
  have root := List.find?_some found
  simp only [Bool.and_eq_true, List.all_eq_true, Atom.mentions_iff] at root
  have nonempty : atoms ≠ [] := by
    rintro rfl
    simp [groups, components, groupOn] at single
  have fewer : ∀ y, unbound (x :: bound) y = true → unbound bound y = true := by
    intro y isUnbound
    simp only [unbound, List.contains_cons, Bool.not_eq_true', Bool.or_eq_false_iff]
      at isUnbound ⊢
    exact isUnbound.2
  have lighter := weight_lt_weight id nonempty fun a listed =>
    countP_lt_countP fewer (root.2 a listed) root.1 (by simp [unbound])
  simpa using lighter

/-- The atom that stands alone and has no unbound variable. -/
def leaf? (bound : List Name) : List Atom → Option Atom
  | [a] => if a.vars.any (unbound bound) then none else some a
  | _ => none

/-- The formula of some atoms, each variable bound where all that use it are
together for the first time. -/
def ofAtoms (vars bound : List Name) (atoms : List Atom) : Except Unsupported Formula :=
  if _ : (groups (unbound bound) atoms).length = 1 then
    match leaf? bound atoms with
    | some a => .ok (.atom a)
    | none =>
      match _ : root? vars bound atoms with
      | some x => (ofAtoms vars (x :: bound) atoms).map (.exist x)
      | none => .error (.noRootVariable (Query.occurring vars atoms) atoms)
  else
    ((groups (unbound bound) atoms).attach.mapM fun group => ofAtoms vars bound group.1).map
      conjunction
termination_by weight (unbound bound) atoms
decreasing_by
  · exact weight_lt_of_root? ‹_› ‹_›
  · exact weight_lt_of_mem_groups ‹_› group.2

/-! ## One equation for each step -/

section Equations

variable {vars bound : List Name} {atoms : List Atom}

theorem ofAtoms_of_leaf {a : Atom} (single : (groups (unbound bound) atoms).length = 1)
    (leaf : leaf? bound atoms = some a) : ofAtoms vars bound atoms = .ok (.atom a) := by
  rw [ofAtoms, dif_pos single]
  simp [leaf]

theorem ofAtoms_of_root {x : Name} (single : (groups (unbound bound) atoms).length = 1)
    (noLeaf : leaf? bound atoms = none) (root : root? vars bound atoms = some x) :
    ofAtoms vars bound atoms = (ofAtoms vars (x :: bound) atoms).map (.exist x) := by
  rw [ofAtoms, dif_pos single]
  simp only [noLeaf]
  split <;> simp_all

theorem ofAtoms_of_noRoot (single : (groups (unbound bound) atoms).length = 1)
    (noLeaf : leaf? bound atoms = none) (noRoot : root? vars bound atoms = none) :
    ofAtoms vars bound atoms =
      .error (.noRootVariable (Query.occurring vars atoms) atoms) := by
  rw [ofAtoms, dif_pos single]
  simp only [noLeaf]
  split <;> simp_all

theorem ofAtoms_of_groups (several : (groups (unbound bound) atoms).length ≠ 1) :
    ofAtoms vars bound atoms =
      ((groups (unbound bound) atoms).mapM (ofAtoms vars bound)).map conjunction := by
  rw [ofAtoms, dif_neg several, List.mapM_subtype fun _ _ => rfl, List.unattach_attach]

end Equations

end Formula

/-- The formula of a query. -/
def Query.formula (q : Query) : Except Unsupported Formula := do
  q.checkHierarchical
  Formula.ofAtoms q.vars [] q.atoms

end SafePlan
