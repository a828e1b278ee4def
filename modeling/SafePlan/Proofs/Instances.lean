/-
# SafePlan.Proofs.Instances — plans that read instances of atoms

The facts that a plan reads are instances of the atoms it was drawn for: an
atom at some constants. Two facts are different when their relations differ,
and when they come from putting different constants at one position
(`Atom.factAt_substitute_ne`). Whatever keeps the atoms of independent parts
without common instances therefore makes the plan safe.

`Plan.Renders` collects what is shown of a plan together, by induction on the
way it is drawn: it is safe, it reads instances of given atoms only, and its
event is a given one. `Plan.Renders.combine` is the step for all combinations.
-/
import SafePlan.Proofs.Outcome
import SafePlan.Proofs.Positions
import SafePlan.Proofs.Safety

set_option autoImplicit false

namespace SafePlan

/-! ## Facts at positions -/

namespace Atom

variable {a b : Atom} {x c d : Name}

/-- Where the variable stood, the fact has the constant. -/
theorem getElem?_factAt_substitute (σ : Assignment) {position : Nat}
    (stands : position ∈ a.positionsOf x) :
    ((a.substitute x c).factAt σ).tuple[position]? = some c := by
  have there := mem_positionsOf.1 stands
  simp [factAt, substitute, there, Term.substitute, Term.nameAt]

/-- Different constants at one position make different facts. -/
theorem factAt_substitute_ne (σ τ : Assignment) {position : Nat}
    (standsA : position ∈ a.positionsOf x) (standsB : position ∈ b.positionsOf x)
    (different : c ≠ d) : (a.substitute x c).factAt σ ≠ (b.substitute x d).factAt τ := by
  intro same
  have atA := getElem?_factAt_substitute (c := c) σ standsA
  have atB := getElem?_factAt_substitute (c := d) τ standsB
  rw [same, atB] at atA
  exact different (Option.some.inj atA).symm

theorem relation_eq_of_factAt_eq {σ τ : Assignment} (same : a.factAt σ = b.factAt τ) :
    a.relation = b.relation :=
  congrArg Fact.relation same

theorem factAt_congr {σ τ : Assignment} (agree : ∀ x ∈ a.vars, σ x = τ x) :
    a.factAt σ = a.factAt τ := by
  rw [factAt, factAt, Fact.mk.injEq]
  refine ⟨rfl, List.map_congr_left fun term listed => ?_⟩
  cases term with
  | const name => rfl
  | var name => exact agree name (List.mem_filterMap.2 ⟨_, listed, rfl⟩)

end Atom

/-! ## Instances -/

/-- The fact is one of the atoms at some constants. -/
def IsInstance (atoms : List Atom) (fact : Fact) : Prop :=
  ∃ a ∈ atoms, ∃ σ : Assignment, fact = a.factAt σ

/-- No fact is an instance of both. -/
def Unshared (atoms others : List Atom) : Prop :=
  ∀ fact, IsInstance atoms fact → ¬ IsInstance others fact

theorem IsInstance.mono {atoms others : List Atom} {fact : Fact}
    (isInstance : IsInstance atoms fact) (subset : atoms ⊆ others) : IsInstance others fact := by
  obtain ⟨a, listed, σ, rfl⟩ := isInstance
  exact ⟨a, subset listed, σ, rfl⟩

theorem unshared_of_relations {atoms others : List Atom}
    (apart : ∀ a ∈ atoms, ∀ b ∈ others, a.relation ≠ b.relation) : Unshared atoms others := by
  rintro fact ⟨a, listedA, σ, rfl⟩ ⟨b, listedB, τ, same⟩
  exact apart a listedA b listedB (Atom.relation_eq_of_factAt_eq same)

/-- Where two atoms of one relation have the variable at a common position, the
atoms at different constants have no instance in common. -/
theorem unshared_substituteAll {atoms : List Atom} {x c d : Name}
    (aligned : ∀ a ∈ atoms, ∀ b ∈ atoms, a.relation = b.relation →
      ∃ position, position ∈ a.positionsOf x ∧ position ∈ b.positionsOf x)
    (different : c ≠ d) : Unshared (Atom.substituteAll x c atoms) (Atom.substituteAll x d atoms) := by
  rintro fact ⟨a', madeA, σ, rfl⟩ ⟨b', madeB, τ, same⟩
  obtain ⟨a, listedA, rfl⟩ := List.mem_map.1 madeA
  obtain ⟨b, listedB, rfl⟩ := List.mem_map.1 madeB
  have sameRelation : a.relation = b.relation := by
    simpa using Atom.relation_eq_of_factAt_eq same
  obtain ⟨position, standsA, standsB⟩ := aligned a listedA b listedB sameRelation
  exact Atom.factAt_substitute_ne σ τ standsA standsB different same

theorem IsInstance.of_substituteAll {atoms : List Atom} {x c : Name} {fact : Fact}
    (isInstance : IsInstance (Atom.substituteAll x c atoms) fact) : IsInstance atoms fact := by
  obtain ⟨a', made, σ, rfl⟩ := isInstance
  obtain ⟨a, listed, rfl⟩ := List.mem_map.1 made
  exact ⟨a, listed, _, a.factAt_substitute σ x c⟩

/-- **A separator keeps its branches apart.** The body at different constants has
no instance in common, whatever the constants for its other variables. -/
theorem Formula.unshared_substitute {f : Formula} {x c d : Name}
    (separates : f.isSeparator x = true) (different : c ≠ d) :
    Unshared (f.substitute x c).atoms (f.substitute x d).atoms := by
  obtain ⟨visible, -⟩ := isSeparator_iff.1 separates
  rw [atoms_substitute_of_visible visible, atoms_substitute_of_visible visible]
  exact unshared_substituteAll (aligned_of_isSeparator separates) different

/-! ## Plans -/

namespace Plan

variable {S : Type}

/-- The plan is safe, reads instances of these atoms, and stands for this event. -/
structure Renders (atoms : List Atom) (event : Event) (plan : Plan S) : Prop where
  safe : plan.Safe
  instances : ∀ fact ∈ plan.reads, IsInstance atoms fact
  holds : ∀ world, plan.Holds world ↔ event world

theorem Renders.value_eq {atoms : List Atom} {event : Event} {plan : Plan S}
    (renders : plan.Renders atoms event) (s : Store Rat) :
    plan.value s.chance = s.likelihood event := by
  rw [renders.safe.value_eq]
  exact likelihood_congr renders.holds

/-- Parts drawn for inputs whose atoms have no instance in common combine to a
plan for the combined events. -/
theorem Renders.combine {ι : Type} {inputs : List ι} {parts : List (Plan S)}
    {atoms : List Atom} {event : Event} (combination : Combination) (subject : S)
    (atomsOf : ι → List Atom) (eventOf : ι → Event)
    (outcome : List.Forall₂ (fun i part => part.Renders (atomsOf i) (eventOf i)) inputs parts)
    (apart : inputs.Pairwise fun i j => Unshared (atomsOf i) (atomsOf j))
    (within : ∀ i ∈ inputs, ∀ fact, IsInstance (atomsOf i) fact → IsInstance atoms fact)
    (same : ∀ world, combination.holds (inputs.map fun i => eventOf i world) ↔ event world) :
    (Plan.combine combination subject parts).Renders atoms event where
  safe := by
    refine .combine (fun part listed => ?_) (pairwise_results outcome apart ?_)
    · obtain ⟨i, -, renders⟩ := exists_input outcome listed
      exact renders.safe
    · intro i j part other renders renders' unshared fact read readOther
      exact unshared fact (renders.instances fact read) (renders'.instances fact readOther)
  instances fact read := by
    obtain ⟨part, listed, readPart⟩ := mem_reads_combine.1 read
    obtain ⟨i, listedI, renders⟩ := exists_input outcome listed
    exact within i listedI fact (renders.instances fact readPart)
  holds world := by
    have truths : parts.map (Holds world) = inputs.map fun i => eventOf i world :=
      map_results (outcome.imp fun i part renders => propext (renders.holds world))
    rw [holds_combine, truths]
    exact same world

end Plan

end SafePlan
