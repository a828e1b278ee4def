/-
# SafePlan.Proofs.Depth — how deep the decomposition goes

Neither rule makes progress by itself: taking atoms apart leaves the variables, and
eliminating a variable leaves the atoms. But a group is not taken apart again
(`not_split_of_split`), so at least every other step eliminates, and that takes away one
variable from all atoms it is applied to (`varsOf_substituteAll`). With `n` variables
no call is deeper than `2 * n`; the invariant tells calls on a group from the others
(`ReachedAt.bound`). None of this asks whether the query passes the check; only whether
there is a rule for a group depends on that (`Query.rule_of_group`).

So a recursion that is given `2 * n + 1` levels never runs out of them, whatever would be
done below (`passWithin_eq`), and no step is recorded at a greater depth.
-/
import SafePlan.Proofs.Obstruction
import SafePlan.Proofs.Sweep

set_option autoImplicit false

namespace SafePlan

/-! ## A group is one group -/

section Groups

variable {linking : Name → Bool} {atoms : List Atom}

theorem single_of_connected (nonempty : atoms ≠ [])
    (connected : ∀ i j : Fin atoms.length, Connected linking atoms i j) :
    (groups linking atoms).length = 1 := by
  have places : List.finRange atoms.length ≠ [] := by
    rw [Ne, ← List.length_eq_zero_iff, List.length_finRange, List.length_eq_zero_iff]
    exact nonempty
  rw [groups, List.length_map, components_eq]
  exact length_groupOn_of_const places fun i _ j _ => classOf_eq_iff.2 (connected i j)

/-- A chain of links that begins in a component stays there, and so is one of its own. -/
theorem connected_of_chain {positions : List (Fin atoms.length)}
    (listed : positions ∈ components linking atoms) {a : Fin positions.length} {j : Nat}
    (chain : Relation.ReflTransGen (Linked linking atoms) positions[a] j)
    (b : Fin positions.length) (ends : positions[b] = j) :
    Connected linking (positions.map fun i => atoms[i]) a b := by
  have increasing := increasing_of_mem_components listed
  rw [components_eq] at listed
  induction chain generalizing b with
  | refl =>
    have distinct : positions.Nodup := increasing.imp fun less => less.ne
    obtain rfl : b = a := Fin.ext ((distinct.getElem_inj_iff).1 (Fin.ext ends))
    exact .refl _
  | @tail k j _ link ih =>
    have shares := link
    obtain ⟨x, left, right, links, atK, atJ, inLeft, inRight⟩ := link
    obtain ⟨insideK, rfl⟩ := List.getElem?_eq_some_iff.1 atK
    have sameKey : classOf linking atoms ⟨k, insideK⟩ = classOf linking atoms positions[b] := by
      rw [classOf_eq_iff, ends]
      exact .rel _ _ shares
    have member : ⟨k, insideK⟩ ∈ positions :=
      mem_group_of_key_eq listed (List.getElem_mem b.2) (List.mem_finRange _) sameKey
    obtain ⟨c, insideC, atC⟩ := List.getElem_of_mem member
    refine .trans _ _ _ (ih ⟨c, insideC⟩ (congrArg Fin.val atC)) (.rel _ _ ?_)
    refine ⟨x, _, right, links, ?_, ?_, inLeft, inRight⟩
    · rw [List.getElem?_map, List.getElem?_eq_getElem insideC, atC]
      rfl
    · rw [← ends] at atJ
      rw [List.getElem?_map, List.getElem?_eq_getElem b.2]
      simpa using atJ

/-- **Components of a component are trivial.** -/
theorem single_of_mem_groups {group : List Atom} (listed : group ∈ groups linking atoms) :
    (groups linking group).length = 1 := by
  have nonempty := ne_nil_of_mem_groups listed
  obtain ⟨positions, inComponents, rfl⟩ := List.mem_map.1 listed
  refine single_of_connected nonempty fun a b => ?_
  have length : (positions.map fun i => atoms[i]).length = positions.length := List.length_map _
  let a' : Fin positions.length := a.cast length
  let b' : Fin positions.length := b.cast length
  have together : ∃ group ∈ components linking atoms,
      positions[a'] ∈ group ∧ positions[b'] ∈ group :=
    ⟨positions, inComponents, List.getElem_mem a'.2, List.getElem_mem b'.2⟩
  exact connected_of_chain inComponents (exists_component_iff.1 together) b' rfl

end Groups

/-! ## Variables of atoms -/

/-- The variables that occur in atoms. -/
def varsOf (atoms : List Atom) : Finset Name := (atoms.flatMap Atom.vars).toFinset

section Variables

variable {atoms : List Atom} {x : Name}

theorem mem_varsOf : x ∈ varsOf atoms ↔ ∃ a ∈ atoms, x ∈ a.vars := by
  rw [varsOf, List.mem_toFinset, List.mem_flatMap]

theorem varsOf_mono {some : List Atom} (subset : some ⊆ atoms) :
    varsOf some ⊆ varsOf atoms := by
  intro x occurs
  obtain ⟨a, listed, inA⟩ := mem_varsOf.1 occurs
  exact mem_varsOf.2 ⟨a, subset listed, inA⟩

/-- Substitution takes one variable away. -/
theorem varsOf_substituteAll (x c : Name) (atoms : List Atom) :
    varsOf (Atom.substituteAll x c atoms) = (varsOf atoms).erase x := by
  ext y
  simp only [mem_varsOf, Finset.mem_erase, Atom.substituteAll, List.mem_map,
    exists_exists_and_eq_and, mem_vars_substitute]
  constructor
  · rintro ⟨a, listed, inA, differs⟩
    exact ⟨differs, a, listed, inA⟩
  · rintro ⟨differs, a, listed, inA⟩
    exact ⟨a, listed, inA, differs⟩

end Variables

/-! ## Calls and their depths -/

namespace Decomposition

variable {vars : List Name} {whole atoms part : List Atom} {depth : Nat}

/-- The atoms that the decomposition may come to, with the depth of the call. -/
inductive ReachedAt (vars : List Name) (whole : List Atom) : Nat → List Atom → Prop
  | whole : ReachedAt vars whole 0 whole
  | part {depth : Nat} {atoms part : List Atom} {parts : List (List Atom)} :
      ReachedAt vars whole depth atoms → of vars atoms = .ok (.split parts) → part ∈ parts →
        ReachedAt vars whole (depth + 1) part
  | branch {depth : Nat} {atoms : List Atom} {x : Name} (c : Name) :
      ReachedAt vars whole depth atoms → of vars atoms = .ok (.eliminate x) →
        ReachedAt vars whole (depth + 1) (Atom.substituteAll x c atoms)

theorem ReachedAt.reached (reached : ReachedAt vars whole depth atoms) :
    Reached vars whole atoms := by
  induction reached with
  | whole => exact .whole
  | part _ rule listed ih => exact .part ih rule listed
  | branch c _ rule ih => exact .branch c ih rule

/-- What a call comes to, the call above it comes to. -/
theorem ReachedAt.trans {depth' : Nat} (reached : ReachedAt vars whole depth atoms)
    (further : ReachedAt vars atoms depth' part) : ReachedAt vars whole (depth + depth') part := by
  induction further with
  | whole => exact reached
  | part _ rule listed ih => exact .part ih rule listed
  | branch c _ rule ih => exact .branch c ih rule

/-- A group is not taken apart again. -/
theorem not_split_of_split {parts parts' : List (List Atom)}
    (split : of vars atoms = .ok (.split parts)) (listed : part ∈ parts) :
    of vars part ≠ .ok (.split parts') := by
  intro again
  obtain ⟨rfl, -⟩ := parts_eq_groups split
  obtain ⟨rfl, several⟩ := parts_eq_groups again
  have single := single_of_mem_groups listed
  omega

/-- There is a variable where atoms are taken apart. -/
theorem card_varsOf_pos_of_split {parts : List (List Atom)}
    (split : of vars atoms = .ok (.split parts)) : 0 < (varsOf atoms).card := by
  have notGround : ¬ atoms.all Atom.isGround = true := by
    intro ground
    rw [of, if_pos ground] at split
    cases split
  simp only [List.all_eq_true, Atom.isGround_iff, not_forall] at notGround
  obtain ⟨a, listed, hasVars⟩ := notGround
  obtain ⟨x, occurs⟩ := List.exists_mem_of_ne_nil _ hasVars
  exact Finset.card_pos.2 ⟨x, mem_varsOf.2 ⟨a, listed, occurs⟩⟩

theorem card_varsOf_of_eliminate {x : Name} (eliminate : of vars atoms = .ok (.eliminate x))
    (c : Name) : (varsOf (Atom.substituteAll x c atoms)).card + 1 = (varsOf atoms).card := by
  obtain ⟨nonempty, mentions⟩ := mentions_of_eliminate eliminate
  obtain ⟨a, listed⟩ := List.exists_mem_of_ne_nil _ nonempty
  have occurs : x ∈ varsOf atoms := mem_varsOf.2 ⟨a, listed, mentions a listed⟩
  rw [varsOf_substituteAll, Finset.card_erase_add_one occurs]

/-- **Two steps take a variable away.** A call on a group comes one level later than its
variables would allow, and then the next step eliminates. -/
theorem ReachedAt.bound (reached : ReachedAt vars whole depth atoms) :
    depth + 2 * (varsOf atoms).card ≤ 2 * (varsOf whole).card ∨
      (groups everyVar atoms).length = 1 ∧ depth + 1 ≤ 2 * (varsOf whole).card ∧
        depth + 2 * (varsOf atoms).card ≤ 2 * (varsOf whole).card + 1 := by
  induction reached with
  | whole => exact .inl (by omega)
  | @part depth atoms part parts _ rule listed ih =>
    obtain ⟨rfl, several⟩ := parts_eq_groups rule
    have fewer := Finset.card_le_card (varsOf_mono (sublist_of_mem_groups listed).subset)
    have some := card_varsOf_pos_of_split rule
    -- the call above was not on a group
    exact .inr ⟨single_of_mem_groups listed, by omega, by omega⟩
  | branch c _ rule ih =>
    have fewer := card_varsOf_of_eliminate rule c
    exact .inl (by omega)

theorem ReachedAt.depth_le (reached : ReachedAt vars whole depth atoms) :
    depth ≤ 2 * (varsOf whole).card := by
  rcases reached.bound with fits | ⟨-, fits, -⟩ <;> omega

/-- What is eliminated is the first variable that is in every atom. -/
theorem first_of_eliminate {x : Name} (eliminate : of vars atoms = .ok (.eliminate x)) :
    ∃ before after, vars = before ++ x :: after ∧ (∀ a ∈ atoms, x ∈ a.vars) ∧
      ∀ y ∈ before, ∃ a ∈ atoms, y ∉ a.vars := by
  obtain ⟨-, found⟩ := single_of_eliminate eliminate
  obtain ⟨everywhere, before, after, split, earlier⟩ := List.find?_eq_some_iff_append.1 found
  refine ⟨before, after, split, by simpa using everywhere, fun y listed => ?_⟩
  simpa using earlier y listed

end Decomposition

/-! ## Levels that suffice -/

section Passes

variable {P : Type} [Arithmetic P] (s : Store P) (traced : Bool)

open Arithmetic

/-- A pass that makes no calls below so many levels; what it does there instead is for the
caller to choose. -/
def passWithin (below : Recorder P P) (vars : List Name) : Nat → Nat → List Atom → Recorder P P
  | 0, _, _ => below
  | levels + 1, depth, atoms =>
    let formula := Query.displayOf (Query.occurring vars atoms) atoms
    match Decomposition.of vars atoms with
    | .error unsupported => throw unsupported
    | .ok .ground =>
      conclude traced depth (.ground atoms.length) formula (all (atoms.map fun a => s.chance a.fact))
    | .ok (.split groups) => do
      let ps ← groups.mapM (passWithin below vars levels (depth + 1))
      conclude traced depth (.split groups.length) formula (all ps)
    | .ok (.eliminate x) => do
      let ps ← s.domain.mapM fun c =>
        passWithin below vars levels (depth + 1) (Atom.substituteAll x c atoms)
      conclude traced depth (.eliminate x s.domain.length) formula (any ps)

/-- **Enough levels.** Where no call is deeper, it does not matter what is below. -/
theorem passWithin_eq (below : Recorder P P) (vars : List Name) {levels : Nat} (depth : Nat)
    (atoms : List Atom)
    (enough : ∀ d part, Decomposition.ReachedAt vars atoms d part → d < levels) :
    passWithin s traced below vars levels depth atoms = passAtoms s traced vars depth atoms := by
  induction levels generalizing depth atoms with
  | zero => exact absurd (enough 0 atoms .whole) (Nat.lt_irrefl 0)
  | succ levels ih =>
    have oneBelow : ∀ part, Decomposition.ReachedAt vars atoms 1 part →
        passWithin s traced below vars levels (depth + 1) part =
          passAtoms s traced vars (depth + 1) part := by
      intro part called
      refine ih (depth + 1) part fun d further reached => ?_
      have := enough _ _ (called.trans reached)
      omega
    rw [passWithin]
    fun_cases passAtoms s traced vars depth atoms with
    | case1 unsupported rule => rw [rule]
    | case2 formula rule => rw [rule]
    | case3 formula parts rule =>
      have same : parts.mapM (passWithin s traced below vars levels (depth + 1)) =
          parts.mapM (passAtoms s traced vars (depth + 1)) :=
        mapM_congr fun part listed => oneBelow part (.part .whole rule listed)
      rw [rule, List.mapM_subtype fun _ _ => rfl, List.unattach_attach, ← same]
    | case4 formula x rule =>
      have same : (s.domain.mapM fun c =>
          passWithin s traced below vars levels (depth + 1) (Atom.substituteAll x c atoms)) =
            s.domain.mapM fun c =>
              passAtoms s traced vars (depth + 1) (Atom.substituteAll x c atoms) :=
        mapM_congr fun c _ => oneBelow _ (.branch c .whole rule)
      rw [rule, ← same]

end Passes

/-! ## Steps that are recorded -/

section Steps

variable {P : Type} [Arithmetic P] {vars domain : List Name} {chance : Fact → P}
  {render : List Atom → String} {atoms : List Atom} {plan : Plan (List Atom)} {depth : Nat}
  {step : TraceStep P}

/-- The step is that of a call that the atoms come to: it is at the depth of the call, and
shows what is called. -/
def StepOfCall (vars : List Name) (render : List Atom → String) (atoms : List Atom) (depth : Nat)
    (step : TraceStep P) : Prop :=
  ∃ d part, Decomposition.ReachedAt vars atoms d part ∧ step.depth = depth + d ∧
    step.formula = render part

/-- A step of a combination is its own, or one of a part one level deeper. -/
theorem stepOfCall_combine {combination : Combination} {parts : List (Plan (List Atom))}
    (each : ∀ child ∈ parts, ∃ part, Decomposition.ReachedAt vars atoms 1 part ∧
      ∀ step ∈ child.steps chance render (depth + 1), StepOfCall vars render part (depth + 1) step)
    (listed : step ∈ (Plan.combine combination atoms parts).steps chance render depth) :
    StepOfCall vars render atoms depth step := by
  rw [Plan.steps_eq, List.mem_append, List.mem_flatMap] at listed
  obtain ⟨child, member, inChild⟩ | own := listed
  · obtain ⟨part, called, ofCalls⟩ := each child member
    obtain ⟨d, further, reached, atDepth, shows⟩ := ofCalls step inChild
    exact ⟨1 + d, further, called.trans reached, by omega, shows⟩
  · obtain rfl := List.mem_singleton.1 own
    exact ⟨0, atoms, .whole, rfl, rfl⟩

/-- **Every step is that of a call.** -/
theorem stepOfCall_of_mem_steps (drawn : Plan.ofAtoms vars domain atoms = .ok plan)
    (listed : step ∈ plan.steps chance render depth) : StepOfCall vars render atoms depth step := by
  induction atoms using Plan.ofAtoms.induct vars generalizing plan depth step with
  | case1 atoms unsupported rule =>
    rw [Plan.ofAtoms_of_error rule] at drawn
    cases drawn
  | case2 atoms rule =>
    rw [Plan.ofAtoms_of_ground rule] at drawn
    cases drawn
    obtain rfl := List.mem_singleton.1 listed
    exact ⟨0, atoms, .whole, rfl, rfl⟩
  | case3 atoms parts rule ih =>
    rw [Plan.ofAtoms_of_split rule] at drawn
    obtain ⟨plans, drawnAll, rfl⟩ := map_eq_ok_iff.1 drawn
    refine stepOfCall_combine (fun child member => ?_) listed
    obtain ⟨part, inParts, drawnPart⟩ := exists_input (mapM_eq_ok_iff.1 drawnAll) member
    exact ⟨part, .part .whole rule inParts, fun step => ih ⟨part, inParts⟩ drawnPart⟩
  | case4 atoms x rule ih =>
    rw [Plan.ofAtoms_of_eliminate rule] at drawn
    obtain ⟨plans, drawnAll, rfl⟩ := map_eq_ok_iff.1 drawn
    refine stepOfCall_combine (fun child member => ?_) listed
    obtain ⟨c, -, drawnBranch⟩ := exists_input (mapM_eq_ok_iff.1 drawnAll) member
    exact ⟨_, .branch c .whole rule, fun step => ih c drawnBranch⟩

end Steps

namespace Query

variable {atoms part : List Atom} {parts : List (List Atom)}

/-- A group is ground or has a variable in every atom, except in queries that the check
rejects. -/
theorem rule_of_group (q : Query) (reached : Decomposition.Reached q.vars q.atoms atoms)
    (split : Decomposition.of q.vars atoms = .ok (.split parts)) (listed : part ∈ parts) :
    Decomposition.of q.vars part = .ok .ground ∨
      (∃ x, Decomposition.of q.vars part = .ok (.eliminate x)) ∨
      q.checkHierarchical ≠ .ok () ∧ Decomposition.of q.vars part =
        .error (.noRootVariable (occurring q.vars part) part) := by
  cases chosen : Decomposition.of q.vars part with
  | ok rule =>
    cases rule with
    | ground => exact .inl rfl
    | split parts' => exact absurd chosen (Decomposition.not_split_of_split split listed)
    | eliminate x => exact .inr (.inl ⟨x, rfl⟩)
  | error unsupported =>
    refine .inr (.inr ⟨fun passes => ?_, by rw [Decomposition.eq_noRootVariable chosen]⟩)
    have fits := q.decomposable (q.checkHierarchical_eq_ok_iff.1 passes)
    obtain ⟨rule, found⟩ := Decomposition.exists_rule
      (Decomposition.decomposable_of_reached fits (.part reached split listed))
    rw [found] at chosen
    cases chosen

/-- **Two levels for each variable.** No call is deeper, groups are never taken apart, and
a variable that is eliminated is gone: the first that is in every atom. So the recursion
ends within so many levels, and the trace has no others. For a group of a query that the
check accepts there is a rule; of one that it rejects, no variable need be in every atom. -/
theorem depth_le_two_mul_variables {P : Type} [Arithmetic P] (q : Query) (s : Store P)
    (options : Options) :
    (∀ depth atoms, Decomposition.ReachedAt q.vars q.atoms depth atoms →
      depth ≤ 2 * (varsOf q.atoms).card ∧
      (∀ parts, Decomposition.of q.vars atoms = .ok (.split parts) → ∀ part ∈ parts,
        Decomposition.of q.vars part = .ok .ground ∨
          (∃ x, Decomposition.of q.vars part = .ok (.eliminate x)) ∨
          q.checkHierarchical ≠ .ok () ∧ Decomposition.of q.vars part =
            .error (.noRootVariable (occurring q.vars part) part)) ∧
      ∀ x, Decomposition.of q.vars atoms = .ok (.eliminate x) →
        (∃ before after, q.vars = before ++ x :: after ∧ (∀ a ∈ atoms, x ∈ a.vars) ∧
          ∀ y ∈ before, ∃ a ∈ atoms, y ∉ a.vars) ∧
        ∀ c, varsOf (Atom.substituteAll x c atoms) = (varsOf atoms).erase x ∧
          (varsOf (Atom.substituteAll x c atoms)).card + 1 = (varsOf atoms).card) ∧
    (∀ traced below, passWithin s traced below q.vars (2 * (varsOf q.atoms).card + 1) 0 q.atoms =
      passAtoms s traced q.vars 0 q.atoms) ∧
    ((∃ unsupported, q.checkHierarchical = .error unsupported ∧
        q.evaluate s options = .error unsupported) ∨
      ∃ evaluation, q.evaluate s options = .ok evaluation ∧
        ∀ step ∈ evaluation.trace, step.depth ≤ 2 * (varsOf q.atoms).card) := by
  refine ⟨fun depth atoms reached => ⟨reached.depth_le,
    fun parts split part listed => q.rule_of_group reached.reached split listed,
    fun x eliminate => ⟨Decomposition.first_of_eliminate eliminate, fun c =>
      ⟨varsOf_substituteAll x c atoms, Decomposition.card_varsOf_of_eliminate eliminate c⟩⟩⟩,
    fun traced below => ?_, ?_⟩
  · exact passWithin_eq s traced below q.vars 0 q.atoms fun d part reached =>
      Nat.lt_succ_of_le reached.depth_le
  · rcases q.passes_or_rejects with passes | ⟨unsupported, rejects⟩
    · have fits := q.decomposable (q.checkHierarchical_eq_ok_iff.1 passes)
      obtain ⟨plan, drawn⟩ := Plan.exists_ofAtoms s.domain fits
      refine .inr ⟨plan.evaluate q.displayPart s options, ?_, fun step listed => ?_⟩
      · rw [evaluate, q.plan_eq s.domain passes, drawn]
        rfl
      · obtain ⟨d, part, reached, atDepth, -⟩ : StepOfCall q.vars q.displayPart q.atoms 0 step := by
          rw [Plan.evaluate] at listed
          split at listed
          · exact stepOfCall_of_mem_steps drawn listed
          · cases listed
        have := reached.depth_le
        omega
    · refine .inl ⟨unsupported, rejects, ?_⟩
      rw [evaluate_eq_error_iff, ← checkHierarchical_eq_error_iff, rejects]

/-- Two groups: one atom without variables, and three around variables that cross. -/
def crossingBeside : Query :=
  ⟨["x", "y"], [⟨"A", []⟩, ⟨"R", [.var "x"]⟩, ⟨"S", [.var "x", .var "y"]⟩, ⟨"T", [.var "y"]⟩],
    fault?_eq_none_iff.1 (by decide)⟩

/-- Without the check a group may be left without a rule. -/
theorem exists_group_without_rule :
    ¬ ∀ (q : Query) (depth : Nat) (atoms : List Atom),
      Decomposition.ReachedAt q.vars q.atoms depth atoms →
        ∀ parts, Decomposition.of q.vars atoms = .ok (.split parts) → ∀ part ∈ parts,
          Decomposition.of q.vars part = .ok .ground ∨
            ∃ x, Decomposition.of q.vars part = .ok (.eliminate x) := by
  intro each
  have apart : Decomposition.of crossingBeside.vars crossingBeside.atoms =
      .ok (.split [crossingBeside.atoms.take 1, crossingBeside.atoms.drop 1]) := by
    decide +kernel
  have noRoot : Decomposition.of crossingBeside.vars (crossingBeside.atoms.drop 1) =
      .error (.noRootVariable ["x", "y"] (crossingBeside.atoms.drop 1)) := by
    decide +kernel
  obtain ground | ⟨x, eliminate⟩ := each crossingBeside 0 _ .whole _ apart
    (crossingBeside.atoms.drop 1) (by simp)
  · rw [noRoot] at ground
    cases ground
  · rw [noRoot] at eliminate
    cases eliminate

end Query

end SafePlan
