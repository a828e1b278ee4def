/-
# SafePlan.Proofs.Derivation — a trace is a derivation of the probability

A trace is a list, and says of each step how deep it is. That is enough to read
it as a tree again: a step's children are the trees right before it that are
deeper. `read` does so with a stack, and `Leveled.read_listing` says that it
finds the tree of which a trace is the listing, so there is no other.

A tree is checked without the store: by its rule, the probability of each step
is a product over its children's, or the opposite of one (`Rule.Gives`). Only
the leaves are taken on trust. A plan stands for such a tree, provided that its
combinations have the number of parts that their rules ask for (`Plan.Branched`).
-/
import SafePlan.Evaluation
import SafePlan.Proofs.Outcome

set_option autoImplicit false

namespace SafePlan

variable {S P : Type}

/-! ## Derivations and their listings -/

/-- A step with the derivations of what it was computed from. -/
inductive Derivation (P : Type) where
  | node (step : TraceStep P) (children : List (Derivation P))

namespace Derivation

/-- The step at the root. -/
def step : Derivation P → TraceStep P
  | .node step _ => step

mutual

/-- The steps, those of the children before their parent's and in order. -/
def listing : Derivation P → List (TraceStep P)
  | .node step children => listingOfAll children ++ [step]

def listingOfAll : List (Derivation P) → List (TraceStep P)
  | [] => []
  | root :: rest => listing root ++ listingOfAll rest

end

theorem listing_node (step : TraceStep P) (children : List (Derivation P)) :
    (node step children).listing = children.flatMap listing ++ [step] := by
  have all : ∀ roots : List (Derivation P), listingOfAll roots = roots.flatMap listing := by
    intro roots
    induction roots with
    | nil => rfl
    | cons root rest ih => rw [listingOfAll, ih, List.flatMap_cons]
  rw [listing, all]

theorem getLast?_listing (root : Derivation P) : root.listing.getLast? = some root.step := by
  obtain ⟨step, children⟩ := root
  rw [listing_node, List.getLast?_concat, Derivation.step]

/-- The root is at a depth, and below a step is the next depth. -/
inductive Leveled : Nat → Derivation P → Prop
  | node {depth : Nat} {step : TraceStep P} {children : List (Derivation P)} :
      step.depth = depth → (∀ child ∈ children, Leveled (depth + 1) child) →
      Leveled depth (.node step children)

theorem Leveled.depth_step {depth : Nat} {root : Derivation P} (leveled : root.Leveled depth) :
    root.step.depth = depth := by
  obtain ⟨here, -⟩ := leveled
  exact here

/-! ## Reading a listing -/

/-- One more step after the trees read so far, which come last first: those that
are deeper become its children. -/
def push (stack : List (Derivation P)) (step : TraceStep P) : List (Derivation P) :=
  .node step (stack.takeWhile (step.depth < ·.step.depth)).reverse ::
    stack.dropWhile (step.depth < ·.step.depth)

/-- The trees that a list of steps is the listing of, last first. -/
def read (trace : List (TraceStep P)) : List (Derivation P) :=
  trace.foldl push []

theorem push_append {step : TraceStep P} {children stack : List (Derivation P)}
    (deeper : ∀ child ∈ children, step.depth < child.step.depth)
    (shallow : ∀ before ∈ stack, before.step.depth ≤ step.depth) :
    push (children.reverse ++ stack) step = .node step children :: stack := by
  have taken : ∀ child ∈ children.reverse, decide (step.depth < child.step.depth) = true :=
    fun child listed => decide_eq_true (deeper child (List.mem_reverse.1 listed))
  have stops : ∀ before ∈ stack.head?, ¬step.depth < before.step.depth :=
    fun before first => Nat.not_lt.2 (shallow before (List.mem_of_mem_head? first))
  rw [push, List.takeWhile_append_of_pos taken, List.dropWhile_append_of_pos taken]
  cases stack with
  | nil => simp
  | cons before rest =>
    have kept : ¬step.depth < before.step.depth := stops before rfl
    rw [List.takeWhile_cons_of_neg (by simpa using kept),
      List.dropWhile_cons_of_neg (by simpa using kept), List.append_nil, List.reverse_reverse]

/-- Trees of one depth, one after the other, after trees that are not deeper. -/
theorem foldl_push_flatMap (depth : Nat) {roots stack : List (Derivation P)}
    (each : ∀ root ∈ roots, root.step.depth = depth ∧ ∀ stack : List (Derivation P),
      (∀ before ∈ stack, before.step.depth ≤ depth) → root.listing.foldl push stack = root :: stack)
    (shallow : ∀ before ∈ stack, before.step.depth ≤ depth) :
    (roots.flatMap listing).foldl push stack = roots.reverse ++ stack := by
  induction roots generalizing stack with
  | nil => rfl
  | cons root rest ih =>
    obtain ⟨⟨level, reads⟩, later⟩ := List.forall_mem_cons.1 each
    have shallow' : ∀ before ∈ root :: stack, before.step.depth ≤ depth :=
      List.forall_mem_cons.2 ⟨Nat.le_of_eq level, shallow⟩
    rw [List.flatMap_cons, List.foldl_append, reads stack shallow, ih later shallow',
      List.reverse_cons, List.append_assoc, List.singleton_append]

/-- **Reading adds the tree that was listed.** By induction on the tree: its
children are read first, onto the same stack, and its own step finds them there.
What was on the stack is not deeper than the root, so it stays. -/
theorem Leveled.foldl_push {depth : Nat} {root : Derivation P} (leveled : root.Leveled depth)
    {stack : List (Derivation P)} (shallow : ∀ before ∈ stack, before.step.depth ≤ depth) :
    root.listing.foldl push stack = root :: stack := by
  induction leveled generalizing stack with
  | @node depth step children here below ih =>
    have children_read : (children.flatMap listing).foldl push stack = children.reverse ++ stack := by
      refine foldl_push_flatMap (depth + 1) (fun child listed => ?_) fun before listed => ?_
      · exact ⟨(below child listed).depth_step, fun stack => ih child listed⟩
      · exact Nat.le_succ_of_le (shallow before listed)
    rw [listing_node, List.foldl_append, children_read]
    -- now the stack is the children, all of them deeper, and what was there before
    refine push_append (fun child listed => ?_) fun before listed => ?_
    · rw [here, (below child listed).depth_step]
      exact Nat.lt_succ_self depth
    · rw [here]
      exact shallow before listed

theorem Leveled.read_listing {depth : Nat} {root : Derivation P} (leveled : root.Leveled depth) :
    read root.listing = [root] :=
  leveled.foldl_push fun _ listed => absurd listed List.not_mem_nil

/-- No two trees have one listing. -/
theorem Leveled.eq_of_listing_eq {depth depth' : Nat} {root other : Derivation P}
    (leveled : root.Leveled depth) (leveled' : other.Leveled depth')
    (same : other.listing = root.listing) : other = root := by
  have found := leveled'.read_listing
  rw [same, leveled.read_listing] at found
  exact (List.singleton_inj.1 found).symm

end Derivation

/-! ## Checking a derivation -/

section Check

variable [Arithmetic P] (constants : Nat)

open Arithmetic

/-- How many values a rule takes, and the one that it gives for them. -/
inductive Rule.Gives : Rule → List P → P → Prop
  | ground (facts : Nat) (p : P) : Gives (.ground facts) [] p
  | split (ps : List P) : Gives (.split ps.length) ps (ps.foldl mul one)
  | eliminate (x : Name) (ps : List P) : ps.length = constants →
      Gives (.eliminate x constants) ps
        (complement (ps.foldl (fun product p => mul product (complement p)) one))
  | negate (p : P) : Gives .negate [p] (complement p)
  | disjoin (p q : P) :
      Gives .disjoin [p, q]
        (complement ([p, q].foldl (fun product p => mul product (complement p)) one))
  | universal (x : Name) (ps : List P) : ps.length = constants →
      Gives (.universal x constants) ps (ps.foldl mul one)

/-- Every step has the probability that its rule gives for the children's. -/
inductive Derivation.Checked : Derivation P → Prop
  | node {step : TraceStep P} {children : List (Derivation P)} :
      step.rule.Gives constants (children.map (·.step.probability)) step.probability →
      (∀ child ∈ children, Checked child) → Checked (.node step children)

/-- The steps are the listing of the derivation and of no other, and the
derivation is one of the probability. -/
structure Derivation.Derives (root : Derivation P) (evaluation : Evaluation P) : Prop where
  listing : root.listing = evaluation.trace
  leveled : root.Leveled 0
  checked : root.Checked constants
  last : evaluation.trace.getLast? = some root.step
  probability : root.step.probability = evaluation.probability
  unique : ∀ (depth : Nat) (other : Derivation P), other.Leveled depth →
    other.listing = evaluation.trace → other = root

/-- An evaluation that can be traced: with a trace or without it, there is the
same probability or the same error, and the trace derives the probability. -/
inductive Traced (run : Options → Except Unsupported (Evaluation P)) : Prop
  | accepted (evaluation : Evaluation P) (root : Derivation P) :
      run { trace := true } = .ok evaluation →
      (∀ parallel, run ⟨false, parallel⟩ = .ok ⟨evaluation.probability, []⟩) →
      root.Derives constants evaluation → Traced run
  | rejected (unsupported : Unsupported) :
      (∀ options, run options = .error unsupported) → Traced run

end Check

/-! ## The derivation that a plan stands for -/

/-- How many parts a combination has. -/
def Combination.Fits (constants : Nat) : Combination → Nat → Prop
  | .split, _ => True
  | .disjoin, parts => parts = 2
  | .eliminate _, parts => parts = constants
  | .universal _, parts => parts = constants

theorem Combination.gives [Arithmetic P] {constants : Nat} {combination : Combination} (ps : List P)
    (fits : combination.Fits constants ps.length) :
    (combination.rule ps.length).Gives constants ps (combination.apply ps) := by
  cases combination with
  | split => exact .split ps
  | disjoin =>
    obtain ⟨p, q, rfl⟩ := List.length_eq_two.1 fits
    exact .disjoin p q
  | eliminate x =>
    obtain rfl : ps.length = constants := fits
    rw [Combination.apply, Arithmetic.any, Arithmetic.all, List.foldl_map]
    exact .eliminate x ps rfl
  | universal x =>
    obtain rfl : ps.length = constants := fits
    exact .universal x ps rfl

namespace Plan

/-- Induction on a plan from its children. -/
theorem childrenInduction {motive : Plan S → Prop}
    (node : ∀ plan : Plan S, (∀ part ∈ plan.children, motive part) → motive plan) (plan : Plan S) :
    motive plan :=
  -- the recursor asks what holds of lists of parts: the same of every member
  @Plan.rec S motive (fun parts => ∀ part ∈ parts, motive part)
    (fun _ _ => node _ fun _ listed => absurd listed List.not_mem_nil)
    (fun _ _ => node _ fun _ listed => absurd listed List.not_mem_nil)
    (fun _ _ ih => node _ (List.forall_mem_singleton.2 ih))
    (fun _ _ _ ih => node _ ih)
    (fun _ listed => absurd listed List.not_mem_nil)
    (fun _ _ here later => List.forall_mem_cons.2 ⟨here, later⟩) plan

section Derivation

variable [Arithmetic P] (chance : Fact → P) (render : S → String)

mutual

def derivation (depth : Nat) : Plan S → Derivation P
  | .ground subject facts => .node (step chance render depth (.ground subject facts)) []
  | .lookup subject fact => .node (step chance render depth (.lookup subject fact)) []
  | .negate subject part =>
    .node (step chance render depth (.negate subject part)) [derivation (depth + 1) part]
  | .combine combination subject parts =>
    .node (step chance render depth (.combine combination subject parts))
      (derivations (depth + 1) parts)

def derivations (depth : Nat) : List (Plan S) → List (Derivation P)
  | [] => []
  | plan :: rest => derivation depth plan :: derivations depth rest

end

theorem derivation_eq (depth : Nat) (plan : Plan S) :
    derivation chance render depth plan =
      .node (step chance render depth plan)
        (plan.children.map (derivation chance render (depth + 1))) := by
  have all : ∀ (depth : Nat) (plans : List (Plan S)),
      derivations chance render depth plans = plans.map (derivation chance render depth) := by
    intro depth plans
    induction plans with
    | nil => rfl
    | cons plan rest ih => rw [derivations, ih, List.map_cons]
  cases plan with
  | ground subject facts => rw [derivation, children, List.map_nil]
  | lookup subject fact => rw [derivation, children, List.map_nil]
  | negate subject part => rw [derivation, children, List.map_singleton]
  | combine combination subject parts => rw [derivation, all, children]

theorem probability_derivation (depth : Nat) (plan : Plan S) :
    (derivation chance render depth plan).step.probability = plan.value chance := by
  rw [derivation_eq, Derivation.step, step]

theorem leveled_derivation (depth : Nat) (plan : Plan S) :
    (derivation chance render depth plan).Leveled depth := by
  induction plan using childrenInduction generalizing depth with
  | node plan ih =>
    rw [derivation_eq]
    refine .node rfl (List.forall_mem_map.2 fun part listed => ?_)
    exact ih part listed (depth + 1)

/-- The steps of a plan are the listing of its derivation. -/
theorem listing_derivation (depth : Nat) (plan : Plan S) :
    (derivation chance render depth plan).listing = plan.steps chance render depth := by
  induction plan using childrenInduction generalizing depth with
  | node plan ih =>
    rw [derivation_eq, Derivation.listing_node, steps_eq, List.flatMap_map]
    congr 1
    exact List.flatMap_congr fun part listed => ih part listed (depth + 1)

/-- Every combination has as many parts as it should have. -/
inductive Branched (constants : Nat) : Plan S → Prop
  | ground (subject : S) (facts : List Fact) : Branched constants (.ground subject facts)
  | lookup (subject : S) (fact : Fact) : Branched constants (.lookup subject fact)
  | negate (subject : S) {part : Plan S} :
      Branched constants part → Branched constants (.negate subject part)
  | combine {combination : Combination} (subject : S) {parts : List (Plan S)} :
      combination.Fits constants parts.length → (∀ part ∈ parts, Branched constants part) →
      Branched constants (.combine combination subject parts)

/-- The values of a plan's nodes are those that its rules give. -/
theorem checked_derivation {constants : Nat} {plan : Plan S} (branched : plan.Branched constants)
    (depth : Nat) : (derivation chance render depth plan).Checked constants := by
  induction branched generalizing depth with
  | ground subject facts =>
    rw [derivation_eq]
    exact .node (.ground facts.length _) fun child listed => absurd listed List.not_mem_nil
  | lookup subject fact =>
    rw [derivation_eq]
    exact .node (.ground 1 _) fun child listed => absurd listed List.not_mem_nil
  | negate subject _ ih =>
    rw [derivation_eq]
    refine .node ?_ (List.forall_mem_singleton.2 (ih (depth + 1)))
    show Rule.negate.Gives constants [(derivation chance render _ _).step.probability] _
    rw [probability_derivation]
    exact .negate _
  | @combine combination subject parts fits _ ih =>
    rw [derivation_eq]
    refine .node ?_ (List.forall_mem_map.2 fun part listed => ih part listed (depth + 1))
    have values : (parts.map (derivation chance render (depth + 1))).map (·.step.probability) =
        parts.map (value chance) := by
      rw [List.map_map]
      exact List.map_congr_left fun part _ => probability_derivation chance render (depth + 1) part
    show (combination.rule parts.length).Gives constants _ (value chance (.combine _ subject parts))
    rw [children, values, value, values_eq_map]
    have count : (parts.map (value chance)).length = parts.length := List.length_map _
    rw [← count] at fits ⊢
    exact Combination.gives _ fits

/-- **The steps of a plan derive its value.** -/
theorem derives_evaluate {plan : Plan S} (s : Store P) (branched : plan.Branched s.domain.length) :
    (derivation s.chance render 0 plan).Derives s.domain.length
      (plan.evaluate render s { trace := true }) := by
  have listing : (derivation s.chance render 0 plan).listing =
      (plan.evaluate render s { trace := true }).trace := listing_derivation s.chance render 0 plan
  have leveled := leveled_derivation s.chance render 0 plan
  refine ⟨listing, leveled, checked_derivation s.chance render branched 0, ?_,
    probability_derivation s.chance render 0 plan, fun depth other leveled' same => ?_⟩
  · rw [← listing]
    exact Derivation.getLast?_listing _
  · exact leveled.eq_of_listing_eq leveled' (same.trans listing.symm)

end Derivation

/-! ## The plans of queries and formulas -/

section Drawn

variable {constants : Nat} {combination : Combination} {subject : S} {plan : Plan S}

/-- A combination of one part for each input. -/
theorem branched_combine {α : Type} {attempt : α → Except Unsupported (Plan S)} {inputs : List α}
    (drawn : (inputs.mapM attempt).map (.combine combination subject) = .ok plan)
    (fits : combination.Fits constants inputs.length)
    (each : ∀ a ∈ inputs, ∀ part, attempt a = .ok part → part.Branched constants) :
    plan.Branched constants := by
  obtain ⟨parts, made, rfl⟩ := map_eq_ok_iff.1 drawn
  have outcome := mapM_eq_ok_iff.1 made
  refine .combine subject (outcome.length_eq ▸ fits) fun part listed => ?_
  obtain ⟨a, listedA, drawnPart⟩ := exists_input outcome listed
  exact each a listedA part drawnPart

/-- A combination of two sides. -/
theorem branched_sides {attempt attempt' : Except Unsupported (Plan S)}
    (drawn : (do
      let left ← attempt
      let right ← attempt'
      return combine combination subject [left, right]) = .ok plan)
    (fits : combination.Fits constants 2)
    (left : ∀ part, attempt = .ok part → part.Branched constants)
    (right : ∀ part, attempt' = .ok part → part.Branched constants) : plan.Branched constants := by
  obtain ⟨first, madeFirst, drawnSecond⟩ := bind_eq_ok_iff.1 drawn
  obtain ⟨second, madeSecond, ⟨⟩⟩ := bind_eq_ok_iff.1 drawnSecond
  refine .combine subject fits (List.forall_mem_cons.2 ⟨left first madeFirst, ?_⟩)
  exact List.forall_mem_singleton.2 (right second madeSecond)

end Drawn

theorem branched_ofAtoms {vars domain : List Name} {atoms : List Atom} {plan : Plan (List Atom)}
    (drawn : ofAtoms vars domain atoms = .ok plan) : plan.Branched domain.length := by
  induction atoms using ofAtoms.induct vars generalizing plan with
  | case1 atoms unsupported rule =>
    rw [ofAtoms_of_error rule] at drawn
    cases drawn
  | case2 atoms rule =>
    rw [ofAtoms_of_ground rule] at drawn
    cases drawn
    exact .ground atoms _
  | case3 atoms parts rule ih =>
    rw [ofAtoms_of_split rule] at drawn
    exact branched_combine drawn trivial fun group listed _ => ih ⟨group, listed⟩
  | case4 atoms x rule ih =>
    rw [ofAtoms_of_eliminate rule] at drawn
    exact branched_combine drawn rfl fun c _ _ => ih c

theorem branched_ofFormula {domain : List Name} {f : Formula} {plan : Plan Formula}
    (drawn : ofFormula domain f = .ok plan) : plan.Branched domain.length := by
  induction f using ofFormula.induct generalizing plan with
  | case1 f unsupported fault =>
    rw [ofFormula_of_fault fault] at drawn
    cases drawn
  | case2 _ =>
    rw [ofFormula_truth] at drawn
    cases drawn
    exact .ground _ []
  | case3 a fine =>
    rw [ofFormula_atom fine] at drawn
    cases drawn
    exact .lookup _ a.fact
  | case4 f fine ih =>
    rw [ofFormula_not] at drawn
    obtain ⟨part, made, rfl⟩ := map_eq_ok_iff.1 drawn
    exact .negate _ (ih made)
  | case5 f g fine ihf ihg =>
    rw [ofFormula_and fine] at drawn
    exact branched_sides drawn trivial (fun _ => ihf) fun _ => ihg
  | case6 f g fine ihf ihg =>
    rw [ofFormula_or fine] at drawn
    exact branched_sides drawn rfl (fun _ => ihf) fun _ => ihg
  | case7 x f fine ih =>
    rw [ofFormula_exist fine] at drawn
    exact branched_combine drawn rfl fun c _ _ => ih c
  | case8 x f fine ih =>
    rw [ofFormula_forAll fine] at drawn
    exact branched_combine drawn rfl fun c _ _ => ih c

end Plan

/-! ## Evaluations -/

section Evaluations

variable [Arithmetic P]

/-- Whether there is a plan does not depend on what is asked for. -/
theorem traced_of_branched {drawn : Except Unsupported (Plan S)} (render : S → String) (s : Store P)
    (branched : ∀ plan, drawn = .ok plan → plan.Branched s.domain.length) :
    Traced s.domain.length fun options => do
      let plan ← drawn
      return plan.evaluate render s options := by
  cases drawn with
  | error unsupported => exact .rejected unsupported fun _ => rfl
  | ok plan =>
    have derives := plan.derives_evaluate render s (branched plan rfl)
    exact .accepted _ _ rfl (fun _ => rfl) derives

/-- **A trace derives the probability that it comes with**, of every query and of
every formula and in whatever arithmetic. -/
theorem traced_evaluate :
    (∀ (q : Query) (s : Store P), Traced s.domain.length (q.evaluate s)) ∧
      ∀ (f : Formula) (s : Store P), Traced s.domain.length (f.evaluate s) := by
  constructor
  · intro q s
    refine traced_of_branched q.displayPart s fun plan drawn => ?_
    obtain ⟨-, -, drawnAtoms⟩ := bind_eq_ok_iff.1 drawn
    exact Plan.branched_ofAtoms drawnAtoms
  · intro f s
    refine traced_of_branched Formula.display s fun plan drawn => ?_
    rw [Formula.plan] at drawn
    split at drawn
    · cases drawn
    · exact Plan.branched_ofFormula drawn

end Evaluations

end SafePlan
