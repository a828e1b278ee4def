/-
# SafePlan.Proofs.QueryLikelihood — evaluation of queries is exact

Over exact numbers, the probability that a hierarchical query gets in a store is
the likelihood that the query holds. By induction on the decomposition
(`Plan.renders_ofAtoms`), with one reason for each rule:

* ground atoms of different relations are different facts;
* groups that share no variable are satisfied by assignments that can be merged
  (`satisfiable_flatten`), and their relations differ;
* a variable that occurs in every atom has some constant of the domain
  (`satisfiable_eliminate`), and at different constants the atoms have no
  instance in common, because no relation is in two of them.

Nothing is asked of the arities: a fact of another length than the stored ones
is not stored, so it is absent for the plan and absent from every world.
-/
import SafePlan.Proofs.Hierarchical
import SafePlan.Proofs.Instances

set_option autoImplicit false

namespace SafePlan

/-- Some choice of constants from the domain makes every atom a fact. -/
def Satisfiable (domain : List Name) (atoms : List Atom) : Event := fun world =>
  ∃ σ : Assignment, (∀ a ∈ atoms, ∀ x ∈ a.vars, σ x ∈ domain) ∧ ∀ a ∈ atoms, world (a.factAt σ)

/-! ## What the rules do to satisfiability -/

section Rules

variable {linking : Name → Bool} {domain : List Name} {atoms : List Atom} {world : World}

theorem satisfiable_ground (ground : ∀ a ∈ atoms, a.isGround = true) :
    Satisfiable domain atoms world ↔ ∀ fact ∈ atoms.map Atom.fact, world fact := by
  rw [List.forall_mem_map]
  constructor
  · rintro ⟨σ, -, present⟩ a listed
    rw [← a.factAt_of_isGround σ (ground a listed)]
    exact present a listed
  · intro present
    refine ⟨id, fun a listed x occurs => ?_, fun a listed => ?_⟩
    · rw [(a.isGround_iff).1 (ground a listed)] at occurs
      cases occurs
    · rw [a.factAt_of_isGround id (ground a listed)]
      exact present a listed

theorem satisfiable_perm {others : List Atom} (perm : atoms.Perm others) :
    Satisfiable domain atoms world ↔ Satisfiable domain others world := by
  simp only [Satisfiable, perm.mem_iff]

/-- Assignments of atoms that share no variable merge into one. -/
theorem satisfiable_append {others : List Atom}
    (apart : ∀ a ∈ atoms, ∀ b ∈ others, ∀ x, x ∈ a.vars → x ∉ b.vars) :
    Satisfiable domain (atoms ++ others) world ↔
      Satisfiable domain atoms world ∧ Satisfiable domain others world := by
  classical
  constructor
  · rintro ⟨σ, inDomain, present⟩
    refine ⟨⟨σ, fun a listed => ?_, fun a listed => ?_⟩, ⟨σ, fun b listed => ?_, fun b listed => ?_⟩⟩
    · exact inDomain a (List.mem_append_left _ listed)
    · exact present a (List.mem_append_left _ listed)
    · exact inDomain b (List.mem_append_right _ listed)
    · exact present b (List.mem_append_right _ listed)
  · rintro ⟨⟨σ, inDomain, present⟩, ⟨τ, inDomain', present'⟩⟩
    let merged : Assignment := fun x => if ∃ a ∈ atoms, x ∈ a.vars then σ x else τ x
    have first : ∀ a ∈ atoms, ∀ x ∈ a.vars, merged x = σ x :=
      fun a listed x occurs => if_pos ⟨a, listed, occurs⟩
    have second : ∀ b ∈ others, ∀ x ∈ b.vars, merged x = τ x := by
      intro b listed x occurs
      refine if_neg ?_
      rintro ⟨a, listedA, occursA⟩
      exact apart a listedA b listed x occursA occurs
    refine ⟨merged, fun a listed x occurs => ?_, fun a listed => ?_⟩
    · rcases List.mem_append.1 listed with here | there
      · rw [first a here x occurs]
        exact inDomain a here x occurs
      · rw [second a there x occurs]
        exact inDomain' a there x occurs
    · rcases List.mem_append.1 listed with here | there
      · rw [a.factAt_congr (first a here)]
        exact present a here
      · rw [a.factAt_congr (second a there)]
        exact present' a there

theorem satisfiable_flatten {parts : List (List Atom)}
    (apart : parts.Pairwise fun part other =>
      ∀ a ∈ part, ∀ b ∈ other, ∀ x, x ∈ a.vars → x ∉ b.vars) :
    Satisfiable domain parts.flatten world ↔ ∀ part ∈ parts, Satisfiable domain part world := by
  induction parts with
  | nil => simp [Satisfiable]
  | cons first rest ih =>
    obtain ⟨fromFirst, apart'⟩ := List.pairwise_cons.1 apart
    rw [List.flatten_cons, satisfiable_append, ih apart', List.forall_mem_cons]
    intro a listedA b listedB
    obtain ⟨part, listed, member⟩ := List.mem_flatten.1 listedB
    exact fromFirst part listed a listedA b member

/-- Parts that share no variable are satisfied apart. -/
theorem satisfiable_parts {parts : List (List Atom)} (parted : Parted everyVar atoms parts) :
    Satisfiable domain atoms world ↔ ∀ part ∈ parts, Satisfiable domain part world := by
  rw [← satisfiable_perm parted.perm]
  refine satisfiable_flatten (parted.apart.imp ?_)
  exact fun apart a listedA b listedB x => apart a listedA b listedB x rfl

/-- A variable that occurs has some constant of the domain; a constant for it
can be put in its place. -/
theorem satisfiable_eliminate {x : Name} (nonempty : atoms ≠ [])
    (mentions : ∀ a ∈ atoms, x ∈ a.vars) :
    Satisfiable domain atoms world ↔
      ∃ c ∈ domain, Satisfiable domain (Atom.substituteAll x c atoms) world := by
  constructor
  · rintro ⟨σ, inDomain, present⟩
    obtain ⟨first, listed⟩ := List.exists_mem_of_ne_nil _ nonempty
    have unchanged : σ.set x (σ x) = σ := by
      funext y
      by_cases here : y = x <;> simp [Assignment.set, here]
    refine ⟨σ x, inDomain first listed x (mentions first listed), σ, ?_, ?_⟩
    · intro a' made y occurs
      obtain ⟨a, listedA, rfl⟩ := List.mem_map.1 made
      exact inDomain a listedA y (mem_vars_substitute.1 occurs).1
    · intro a' made
      obtain ⟨a, listedA, rfl⟩ := List.mem_map.1 made
      rw [Atom.factAt_substitute, unchanged]
      exact present a listedA
  · rintro ⟨c, inDomainC, σ, inDomain, present⟩
    refine ⟨σ.set x c, fun a listed y occurs => ?_, fun a listed => ?_⟩
    · by_cases here : y = x
      · simpa [Assignment.set, here] using inDomainC
      · have kept := inDomain _ (List.mem_map_of_mem listed) y (mem_vars_substitute.2 ⟨occurs, here⟩)
        simpa [Assignment.set, here] using kept
    · rw [← Atom.factAt_substitute]
      exact present _ (List.mem_map_of_mem listed)

/-! ## What keeps the parts apart -/

theorem aligned_of_unrepeated {x : Name} (unrepeated : (atoms.map Atom.relation).Nodup)
    (mentions : ∀ a ∈ atoms, x ∈ a.vars) :
    ∀ a ∈ atoms, ∀ b ∈ atoms, a.relation = b.relation →
      ∃ position, position ∈ a.positionsOf x ∧ position ∈ b.positionsOf x := by
  intro a listedA b listedB sameRelation
  obtain rfl : a = b := List.inj_on_of_nodup_map unrepeated listedA listedB sameRelation
  obtain ⟨position, stands⟩ := Atom.exists_mem_positionsOf (mentions a listedA)
  exact ⟨position, stands, stands⟩

end Rules

/-! ## Plans of atoms -/

/-- Plans of parts that share no variable combine to one of the whole. -/
theorem Plan.renders_parts {domain : List Name} {atoms : List Atom} {parts : List (List Atom)}
    {plans : List (Plan (List Atom))} (parted : Parted everyVar atoms parts)
    (unrepeated : (atoms.map Atom.relation).Nodup)
    (outcome : List.Forall₂ (fun part plan => plan.Renders part (Satisfiable domain part))
      parts plans) :
    (Plan.combine .split atoms plans).Renders atoms (Satisfiable domain atoms) := by
  refine .combine .split atoms id (Satisfiable domain) outcome
    ((parted.pairwise_relations unrepeated).imp unshared_of_relations) ?_ ?_
  · exact fun part listed fact isInstance => isInstance.mono (parted.subset listed)
  · intro world
    rw [satisfiable_parts parted]
    exact Combination.holds_split

/-- **The plan of some atoms stands for their satisfiability.** By induction on
the decomposition; that no relation is in two atoms is kept by its steps. -/
theorem Plan.renders_ofAtoms {vars domain : List Name} {atoms : List Atom} {plan : Plan (List Atom)}
    (distinct : domain.Nodup) (unrepeated : (atoms.map Atom.relation).Nodup)
    (drawn : Plan.ofAtoms vars domain atoms = .ok plan) :
    plan.Renders atoms (Satisfiable domain atoms) := by
  induction atoms using Plan.ofAtoms.induct vars generalizing plan with
  | case1 atoms unsupported rule =>
    rw [Plan.ofAtoms_of_error rule] at drawn
    cases drawn
  | case2 atoms rule =>
    have ground := Decomposition.isGround_of_ground rule
    rw [Plan.ofAtoms_of_ground rule] at drawn
    cases drawn
    refine ⟨.ground ?_, fun fact read => ?_, fun world => (satisfiable_ground ground).symm⟩
    · refine List.Nodup.of_map Fact.relation ?_
      rw [List.map_map]
      exact unrepeated
    · obtain ⟨a, listed, rfl⟩ := List.mem_map.1 read
      exact ⟨a, listed, id, (a.factAt_of_isGround id (ground a listed)).symm⟩
  | case3 atoms parts rule ih =>
    rw [Plan.ofAtoms_of_split rule] at drawn
    obtain ⟨plans, made, rfl⟩ := map_eq_ok_iff.1 drawn
    obtain ⟨rfl, -⟩ := Decomposition.parts_eq_groups rule
    have parted := parted_groups everyVar atoms
    refine renders_parts parted unrepeated (forall₂_of_mapM made fun part listed plan drawnPart => ?_)
    exact ih ⟨part, listed⟩ (parted.nodup_relations unrepeated listed) drawnPart
  | case4 atoms x rule ih =>
    rw [Plan.ofAtoms_of_eliminate rule] at drawn
    obtain ⟨plans, made, rfl⟩ := map_eq_ok_iff.1 drawn
    obtain ⟨nonempty, mentions⟩ := Decomposition.mentions_of_eliminate rule
    refine .combine (.eliminate x) atoms (fun c => Atom.substituteAll x c atoms)
      (fun c => Satisfiable domain (Atom.substituteAll x c atoms)) (forall₂_of_mapM made ?_)
      (distinct.imp (unshared_substituteAll (aligned_of_unrepeated unrepeated mentions)))
      (fun _ _ _ => IsInstance.of_substituteAll) ?_
    · intro c _ plan drawn
      refine ih c ?_ drawn
      simpa [Atom.substituteAll, Function.comp_def] using unrepeated
    · intro world
      rw [satisfiable_eliminate nonempty mentions]
      exact Combination.holds_eliminate

/-! ## Queries -/

namespace Query

theorem mem_occurringVars {q : Query} {x : Name} :
    x ∈ q.occurringVars ↔ ∃ a ∈ q.atoms, x ∈ a.vars := by
  rw [occurringVars, occurring, List.mem_filter, List.any_eq_true]
  constructor
  · rintro ⟨-, a, listed, mentions⟩
    exact ⟨a, listed, Atom.mentions_iff.1 mentions⟩
  · rintro ⟨a, listed, occurs⟩
    exact ⟨q.declared a listed x occurs, a, listed, Atom.mentions_iff.2 occurs⟩

theorem holds_iff_satisfiable (q : Query) (domain : List Name) (world : World) :
    q.Holds domain world ↔ Satisfiable domain q.atoms world := by
  refine exists_congr fun σ => and_congr_left fun _ => ?_
  constructor
  · intro inDomain a listed x occurs
    exact inDomain x (mem_occurringVars.2 ⟨a, listed, occurs⟩)
  · intro inDomain x occurring
    obtain ⟨a, listed, occurs⟩ := mem_occurringVars.1 occurring
    exact inDomain a listed x occurs

/-- **Evaluation of queries is exact.** A query that passes the check gets a
probability in every store, the weight of the possible worlds in which it holds. -/
theorem evaluate_eq_likelihood (q : Query) (hierarchical : q.checkHierarchical = .ok ())
    (s : Store Rat) (options : Options) :
    ∃ evaluation, q.evaluate s options = .ok evaluation ∧
      evaluation.probability = s.likelihood fun world => q.Holds s.domain world := by
  have fits := q.decomposable (q.checkHierarchical_eq_ok_iff.1 hierarchical)
  obtain ⟨plan, drawn⟩ := Plan.exists_ofAtoms s.domain fits
  have renders := Plan.renders_ofAtoms s.nodup_domain q.valid.unrepeated drawn
  refine ⟨plan.evaluate q.displayPart s options, ?_, ?_⟩
  · rw [evaluate, q.plan_eq s.domain hierarchical, drawn]
    rfl
  · show plan.value s.chance = _
    rw [renders.value_eq s]
    exact likelihood_congr fun world => (q.holds_iff_satisfiable s.domain world).symm

/-- Two stored facts, of which the query needs both. -/
theorem evaluate_reachable :
    reachable.checkHierarchical = .ok () ∧
      ∃ evaluation, reachable.evaluate Store.pair {} = .ok evaluation ∧
        evaluation.probability = 1 / 6 ∧
        evaluation.probability =
          Store.pair.likelihood fun world => reachable.Holds Store.pair.domain world := by
  have hierarchical : reachable.checkHierarchical = .ok () := by decide
  obtain ⟨evaluation, drawn, exact⟩ := evaluate_eq_likelihood reachable hierarchical Store.pair {}
  have computed : (reachable.evaluate Store.pair {}).toOption.map (·.probability) = some (1 / 6) := by
    decide +kernel
  rw [drawn] at computed
  exact ⟨hierarchical, evaluation, drawn, Option.some.inj computed, exact⟩

end Query

end SafePlan
