/-
# SafePlan.Proofs.Positions — where variables stand

In an atom, a variable stands at positions; in a formula it is free there or
hidden by a quantifier of the same name. A name is `Visible` in a formula when
it is hidden in no atom in which it occurs; then putting a constant in its place
reaches all atoms (`atoms_substitute_of_visible`).

A separator is a visible name that stands in every atom, and at the same
positions in atoms of one relation (`isSeparator_iff`). Together with the test
for shared relations this is all that acceptance of a formula asks.
-/
import SafePlan.FormulaPlan

set_option autoImplicit false

namespace SafePlan

/-! ## In atoms -/

namespace Atom

variable {a : Atom} {x c : Name}

theorem mem_positionsOf {position : Nat} :
    position ∈ a.positionsOf x ↔ a.terms[position]? = some (.var x) := by
  simp only [positionsOf, List.mem_filterMap, Prod.exists, List.mk_mem_zipIdx_iff_getElem?]
  constructor
  · rintro ⟨term, place, stands, chosen⟩
    split at chosen <;> rename_i isVar
    · obtain rfl := Option.some.inj chosen
      cases term with
      | const name => cases isVar
      | var name => cases isVar; exact stands
    · cases chosen
  · intro stands
    exact ⟨.var x, position, stands, by simp [Term.var?]⟩

theorem exists_mem_positionsOf (occurs : x ∈ a.vars) : ∃ position, position ∈ a.positionsOf x := by
  obtain ⟨term, listed, isVar⟩ := List.mem_filterMap.1 occurs
  obtain ⟨position, stands⟩ := List.mem_iff_getElem?.1 listed
  refine ⟨position, mem_positionsOf.2 ?_⟩
  cases term with
  | const name => cases isVar
  | var name => cases isVar; exact stands

theorem positionsOf_ne_nil (occurs : x ∈ a.vars) : a.positionsOf x ≠ [] := by
  obtain ⟨position, stands⟩ := exists_mem_positionsOf occurs
  exact List.ne_nil_of_mem stands

theorem substitute_of_not_mem (absent : x ∉ a.vars) : a.substitute x c = a := by
  cases a with
  | mk relation terms =>
    rw [substitute, Atom.mk.injEq]
    refine ⟨rfl, (List.map_congr_left fun term listed => ?_).trans (List.map_id terms)⟩
    cases term with
    | const name => rfl
    | var name =>
      have different : name ≠ x := by
        rintro rfl
        exact absent (List.mem_filterMap.2 ⟨_, listed, rfl⟩)
      rw [Term.substitute, if_neg different, id]

theorem substitute_of_nowhere (nowhere : a.positionsOf x = []) : a.substitute x c = a := by
  apply substitute_of_not_mem
  intro occurs
  exact positionsOf_ne_nil occurs nowhere

end Atom

/-! ## In formulas -/

namespace Formula

variable {f g : Formula} {x : Name}

/-- Every atom's positions of the name are free: no quantifier of the same name
stands above an atom in which it occurs. -/
def Visible (x : Name) (f : Formula) : Prop :=
  f.freePositions x = f.atoms.map fun a => (a, a.positionsOf x)

theorem visible_and (left : f.Visible x) (right : g.Visible x) : (Formula.and f g).Visible x := by
  rw [Visible, freePositions, left, right, atoms, List.map_append]

theorem visible_or (left : f.Visible x) (right : g.Visible x) : (Formula.or f g).Visible x := by
  rw [Visible, freePositions, left, right, atoms, List.map_append]

/-- Where all atoms are hidden and yet have free positions, there are no atoms. -/
theorem atoms_eq_nil_of_hidden
    (placed : ∀ place ∈ f.atoms.map fun a => (a, ([] : List Nat)), place.2 ≠ []) : f.atoms = [] := by
  refine List.eq_nil_iff_forall_not_mem.2 fun a listed => ?_
  exact placed (a, []) (List.mem_map_of_mem listed) rfl

theorem visible_of_placed (placed : ∀ place ∈ f.freePositions x, place.2 ≠ []) : f.Visible x := by
  induction f with
  | truth => rfl
  | atom a => rfl
  | not f ih => exact ih placed
  | and f g ihf ihg =>
    obtain ⟨left, right⟩ := List.forall_mem_append.1 placed
    exact visible_and (ihf left) (ihg right)
  | or f g ihf ihg =>
    obtain ⟨left, right⟩ := List.forall_mem_append.1 placed
    exact visible_or (ihf left) (ihg right)
  | exist y f ih | forAll y f ih =>
    rw [freePositions] at placed
    rw [Visible, freePositions, atoms]
    split <;> rename_i again
    · rw [if_pos again] at placed
      rw [atoms_eq_nil_of_hidden placed, List.map_nil, List.map_nil]
    · rw [if_neg again] at placed
      exact ih placed

/-- Substitution reaches the atoms in which the name has a free position. -/
theorem atoms_substitute (x c : Name) (f : Formula) :
    (f.substitute x c).atoms =
      (f.freePositions x).map fun place =>
        if place.2 = [] then place.1 else place.1.substitute x c := by
  induction f with
  | truth => rfl
  | atom a =>
    rw [substitute, atoms, freePositions, List.map_singleton]
    split <;> rename_i nowhere
    · rw [Atom.substitute_of_nowhere nowhere]
    · rfl
  | not f ih => exact ih
  | and f g ihf ihg | or f g ihf ihg =>
    rw [substitute, atoms, ihf, ihg, freePositions, List.map_append]
  | exist y f ih | forAll y f ih =>
    rw [substitute, freePositions]
    split
    · simp [atoms, Function.comp_def]
    · exact ih

theorem atoms_substitute_of_visible (visible : f.Visible x) (c : Name) :
    (f.substitute x c).atoms = Atom.substituteAll x c f.atoms := by
  rw [atoms_substitute, visible, List.map_map]
  refine List.map_congr_left fun a _ => ?_
  rw [Function.comp_apply]
  split <;> rename_i nowhere
  · exact (Atom.substitute_of_nowhere nowhere).symm
  · rfl

/-! ## What the tests say -/

theorem isSeparator_iff_placed :
    f.isSeparator x = true ↔ ∀ place ∈ f.freePositions x, place.2 ≠ [] ∧
      ∀ other ∈ f.freePositions x, place.1.relation = other.1.relation → place.2 = other.2 := by
  simp [isSeparator, List.all_eq_true, Classical.or_iff_not_imp_left]

/-- A separator stands in every atom, at equal positions in atoms of one relation. -/
theorem isSeparator_iff :
    f.isSeparator x = true ↔
      f.Visible x ∧ (∀ a ∈ f.atoms, a.positionsOf x ≠ []) ∧
        ∀ a ∈ f.atoms, ∀ b ∈ f.atoms, a.relation = b.relation →
          a.positionsOf x = b.positionsOf x := by
  rw [isSeparator_iff_placed]
  constructor
  · intro placed
    have visible : f.Visible x := visible_of_placed fun place listed => (placed place listed).1
    rw [visible] at placed
    simp only [List.forall_mem_map] at placed
    exact ⟨visible, fun a listed => (placed a listed).1, fun a listed => (placed a listed).2⟩
  · rintro ⟨visible, stands, aligned⟩
    rw [visible]
    simp only [List.forall_mem_map]
    exact fun a listed => ⟨stands a listed, aligned a listed⟩

/-- `S(a, b)` is an instance of `S(x, y)` at `x := a` and of `S(y, x)` at `x := b`. -/
example :
    (Formula.and (.atom ⟨"S", [.var "x", .var "y"]⟩)
      (.atom ⟨"S", [.var "y", .var "x"]⟩)).isSeparator "x" = false := by decide

theorem sharedRelation?_eq_none_iff :
    sharedRelation? f g = none ↔ ∀ a ∈ f.atoms, ∀ b ∈ g.atoms, a.relation ≠ b.relation := by
  simp only [sharedRelation?, relations, List.find?_eq_none, NameSet.mem_ofList, List.mem_map,
    List.contains_iff_mem, not_exists, not_and, forall_exists_index, and_imp,
    forall_apply_eq_imp_iff₂]
  exact ⟨fun apart a listedA b listedB => apart b listedB a listedA,
    fun apart b listedB a listedA => apart a listedA b listedB⟩

theorem aligned_of_isSeparator (separates : f.isSeparator x = true) :
    ∀ a ∈ f.atoms, ∀ b ∈ f.atoms, a.relation = b.relation →
      ∃ position, position ∈ a.positionsOf x ∧ position ∈ b.positionsOf x := by
  obtain ⟨-, stands, aligned⟩ := isSeparator_iff.1 separates
  intro a listedA b listedB sameRelation
  obtain ⟨position, standsA⟩ := List.exists_mem_of_ne_nil _ (stands a listedA)
  refine ⟨position, standsA, ?_⟩
  rwa [← aligned a listedA b listedB sameRelation]

end Formula

end SafePlan
