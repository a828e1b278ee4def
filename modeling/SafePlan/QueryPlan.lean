/-
# SafePlan.QueryPlan — the plan of a hierarchical query

Atoms are taken apart by three rules. Without variables they are facts of
distinct relations. In groups that share no variable they are independent
events. And a variable that occurs in every atom is eliminated: at different
constants the atoms become different facts, so the branches are independent.

What is left when no rule applies is an error, which a hierarchical query never
meets. The recursion ends because groups weigh less than the whole and because
eliminating a variable removes all its occurrences.
-/
import SafePlan.Components
import SafePlan.Hierarchy
import SafePlan.Plan

set_option autoImplicit false

namespace SafePlan

/-- All variables link atoms. -/
abbrev everyVar : Name → Bool := fun _ => true

inductive Decomposition where
  | ground
  | split (groups : List (List Atom))
  | eliminate (x : Name)
  deriving DecidableEq, Repr

namespace Decomposition

/-- The first of the variables that occurs in every atom. -/
def root? (vars : List Name) (atoms : List Atom) : Option Name :=
  vars.find? fun x => atoms.all (·.mentions x)

/-- The rule for some atoms; of several variables to eliminate, the first. -/
def of (vars : List Name) (atoms : List Atom) : Except Unsupported Decomposition :=
  if atoms.all Atom.isGround then .ok .ground
  else if 1 < (groups everyVar atoms).length then .ok (.split (groups everyVar atoms))
  else match root? vars atoms with
    | some x => .ok (.eliminate x)
    | none => .error (.noRootVariable (Query.occurring vars atoms) atoms)

theorem weight_lt_of_split {vars : List Name} {atoms : List Atom} {parts : List (List Atom)}
    (split : of vars atoms = .ok (.split parts)) {group : List Atom} (listed : group ∈ parts) :
    weight everyVar group < weight everyVar atoms := by
  unfold of at split
  split at split
  · simp at split
  · split at split <;> rename_i several
    · obtain rfl : groups everyVar atoms = parts := by simpa using split
      exact weight_lt_of_mem_groups (by omega) listed
    · split at split <;> simp at split

theorem mentions_of_eliminate {vars : List Name} {atoms : List Atom} {x : Name}
    (eliminate : of vars atoms = .ok (.eliminate x)) :
    atoms ≠ [] ∧ ∀ a ∈ atoms, x ∈ a.vars := by
  unfold of at eliminate
  split at eliminate <;> rename_i ground
  · simp at eliminate
  · split at eliminate
    · simp at eliminate
    · split at eliminate <;> rename_i found
      · obtain rfl : _ = x := by simpa using eliminate
        refine ⟨fun none => ground (by simp [none]), fun a listed => ?_⟩
        have := List.find?_some found
        simp only [List.all_eq_true, Atom.mentions_iff] at this
        exact this a listed
      · simp at eliminate

theorem weight_lt_of_eliminate {vars : List Name} {atoms : List Atom} {x : Name}
    (eliminate : of vars atoms = .ok (.eliminate x)) (c : Name) :
    weight everyVar (Atom.substituteAll x c atoms) < weight everyVar atoms := by
  obtain ⟨nonempty, mentions⟩ := mentions_of_eliminate eliminate
  refine weight_lt_weight _ nonempty fun a listed => ?_
  rw [Atom.vars_substitute, List.countP_filter]
  exact countP_lt_countP (fun _ _ => rfl) (mentions a listed) rfl (by simp)

end Decomposition

namespace Plan

/-- The plan of some atoms over a domain, when each step has a rule. -/
def ofAtoms (vars domain : List Name) (atoms : List Atom) :
    Except Unsupported (Plan (List Atom)) :=
  match _ : Decomposition.of vars atoms with
  | .error unsupported => .error unsupported
  | .ok .ground => .ok (.ground atoms (atoms.map Atom.fact))
  | .ok (.split groups) =>
    (groups.attach.mapM fun group => ofAtoms vars domain group.1).map
      (.combine .split atoms)
  | .ok (.eliminate x) =>
    (domain.mapM fun c => ofAtoms vars domain (Atom.substituteAll x c atoms)).map
      (.combine (.eliminate x) atoms)
termination_by weight everyVar atoms
decreasing_by
  · exact Decomposition.weight_lt_of_split ‹_› group.2
  · exact Decomposition.weight_lt_of_eliminate ‹_› c

/-! ## One equation for each decomposition -/

section Equations

variable {vars domain : List Name} {atoms : List Atom}

theorem ofAtoms_of_error {unsupported : Unsupported}
    (rule : Decomposition.of vars atoms = .error unsupported) :
    ofAtoms vars domain atoms = .error unsupported := by
  rw [ofAtoms]
  split <;> simp_all

theorem ofAtoms_of_ground (rule : Decomposition.of vars atoms = .ok .ground) :
    ofAtoms vars domain atoms = .ok (.ground atoms (atoms.map Atom.fact)) := by
  rw [ofAtoms]
  split <;> simp_all

theorem ofAtoms_of_split {groups : List (List Atom)}
    (rule : Decomposition.of vars atoms = .ok (.split groups)) :
    ofAtoms vars domain atoms =
      (groups.mapM (ofAtoms vars domain)).map (.combine .split atoms) := by
  rw [ofAtoms]
  split <;> rename_i rule' <;> rw [rule] at rule'
  · simp at rule'
  · simp at rule'
  · obtain rfl : groups = _ := by simpa using rule'
    rw [List.mapM_subtype fun _ _ => rfl, List.unattach_attach]
  · simp at rule'

theorem ofAtoms_of_eliminate {x : Name}
    (rule : Decomposition.of vars atoms = .ok (.eliminate x)) :
    ofAtoms vars domain atoms =
      (domain.mapM fun c => ofAtoms vars domain (Atom.substituteAll x c atoms)).map
        (.combine (.eliminate x) atoms) := by
  rw [ofAtoms]
  split <;> simp_all

end Equations

end Plan

namespace Query

/-- The plan of a query over a domain. -/
def plan (domain : List Name) (q : Query) : Except Unsupported (Plan (List Atom)) := do
  q.checkHierarchical
  Plan.ofAtoms q.vars domain q.atoms

/-- The sub-query that a node of the query's plan stands for. -/
def displayPart (q : Query) (atoms : List Atom) : String :=
  displayOf (occurring q.vars atoms) atoms

end Query

end SafePlan
