/-
# SafePlan.Proofs.Recording — evaluation in one pass

No plan has to be drawn to evaluate. A pass classifies what it is given, goes
through the parts one level deeper, and concludes with a probability; if there
is to be a trace, it appends its step to the steps recorded before it. At the
first part without a rule it gives up, and what was recorded is lost.

That is the same evaluation (`Query.evaluate_eq_pass`, `Formula.evaluate_eq_pass`).
The invariant is what one pass appends, at every depth and behind whatever was
recorded before: the steps of the plan of the same part (`Appends`).
-/
import SafePlan.Evaluation
import SafePlan.Proofs.Outcome

set_option autoImplicit false

namespace SafePlan

variable {P : Type}

/-- A computation that may fail and that records steps. -/
abbrev Recorder (P : Type) := StateT (List (TraceStep P)) (Except Unsupported)

/-! ## The passes -/

/-- A probability that was found, recorded if there is to be a trace. -/
def conclude (traced : Bool) (depth : Nat) (rule : Rule) (formula : String) (p : P) :
    Recorder P P := do
  if traced then
    modify (· ++ [⟨depth, rule, formula, p⟩])
  return p

theorem run_conclude (traced : Bool) (depth : Nat) (rule : Rule) (formula : String) (p : P)
    (log : List (TraceStep P)) :
    (conclude traced depth rule formula p).run log =
      .ok (p, log ++ if traced then [⟨depth, rule, formula, p⟩] else []) := by
  cases traced with
  | false =>
    show Except.ok (p, log) = .ok (p, log ++ [])
    rw [List.append_nil]
  | true => rfl

section Passes

variable [Arithmetic P] (s : Store P) (traced : Bool)

open Arithmetic

def passAtoms (vars : List Name) (depth : Nat) (atoms : List Atom) : Recorder P P :=
  let formula := Query.displayOf (Query.occurring vars atoms) atoms
  match _ : Decomposition.of vars atoms with
  | .error unsupported => throw unsupported
  | .ok .ground =>
    conclude traced depth (.ground atoms.length) formula (all (atoms.map fun a => s.chance a.fact))
  | .ok (.split groups) => do
    let ps ← groups.attach.mapM fun group => passAtoms vars (depth + 1) group.1
    conclude traced depth (.split groups.length) formula (all ps)
  | .ok (.eliminate x) => do
    let ps ← s.domain.mapM fun c => passAtoms vars (depth + 1) (Atom.substituteAll x c atoms)
    conclude traced depth (.eliminate x s.domain.length) formula (any ps)
termination_by weight everyVar atoms
decreasing_by
  · exact Decomposition.weight_lt_of_split ‹_› group.2
  · exact Decomposition.weight_lt_of_eliminate ‹_› c

def passFormula (depth : Nat) (f : Formula) : Recorder P P :=
  match f.fault? with
  | some unsupported => throw unsupported
  | none =>
    match f with
    | .truth => conclude traced depth (.ground 0) f.display one
    | .atom a => conclude traced depth (.ground 1) f.display (s.chance a.fact)
    | .not g => do
      let p ← passFormula (depth + 1) g
      conclude traced depth .negate f.display (complement p)
    | .and g h => do
      let p ← passFormula (depth + 1) g
      let q ← passFormula (depth + 1) h
      conclude traced depth (.split 2) f.display (all [p, q])
    | .or g h => do
      let p ← passFormula (depth + 1) g
      let q ← passFormula (depth + 1) h
      conclude traced depth .disjoin f.display (any [p, q])
    | .exist x g => do
      let ps ← s.domain.mapM fun c => passFormula (depth + 1) (g.substitute x c)
      conclude traced depth (.eliminate x s.domain.length) f.display (any ps)
    | .forAll x g => do
      let ps ← s.domain.mapM fun c => passFormula (depth + 1) (g.substitute x c)
      conclude traced depth (.universal x s.domain.length) f.display (all ps)
termination_by f.size
decreasing_by all_goals simp only [Formula.size, Formula.size_substitute]; omega

end Passes

/-! ## What a pass appends -/

/-- The pass succeeds where the attempt does, with a value of its result, and
appends what is to be written about it. -/
def Appends {α β : Type} (pass : Recorder P α) (attempt : Except Unsupported β) (value : β → α)
    (written : β → List (TraceStep P)) : Prop :=
  ∀ log, pass.run log = attempt.map fun b => (value b, log ++ written b)

namespace Appends

variable {α β ι : Type} {value : β → α} {written : β → List (TraceStep P)}

theorem mapM {pass : ι → Recorder P α} {attempt : ι → Except Unsupported β} {inputs : List ι}
    (each : ∀ i ∈ inputs, Appends (pass i) (attempt i) value written) :
    Appends (inputs.mapM pass) (inputs.mapM attempt) (·.map value) (·.flatMap written) := by
  induction inputs with
  | nil =>
    intro log
    show Except.ok (([] : List α), log) = .ok ([], log ++ [])
    rw [List.append_nil]
  | cons first rest ih =>
    obtain ⟨here, later⟩ := List.forall_mem_cons.1 each
    intro log
    rw [List.mapM_cons, List.mapM_cons, StateT.run_bind, here log]
    cases attempt first with
    | error unsupported => rfl
    | ok b =>
      have others := ih later (log ++ written b)
      show (do let (as, log) ← (rest.mapM pass).run (log ++ written b); .ok (value b :: as, log)) =
        Except.map _ (do let bs ← rest.mapM attempt; .ok (b :: bs))
      rw [others]
      cases rest.mapM attempt with
      | error unsupported => rfl
      | ok bs =>
        show Except.ok (value b :: bs.map value, log ++ written b ++ bs.flatMap written) = .ok _
        simp only [List.map_cons, List.flatMap_cons, List.append_assoc]

end Appends

section Plans

variable {S : Type} [Arithmetic P] (s : Store P) (render : S → String) (traced : Bool)

/-- The steps of a plan, if there is to be a trace. -/
def recorded (depth : Nat) (plan : Plan S) : List (TraceStep P) :=
  if traced then plan.steps s.chance render depth else []

theorem recorded_eq (depth : Nat) (plan : Plan S) :
    recorded s render traced depth plan =
      plan.children.flatMap (recorded s render traced (depth + 1)) ++
        if traced then [plan.step s.chance render depth] else [] := by
  cases traced with
  | false => simp [recorded]
  | true => exact plan.steps_eq s.chance render depth

variable {s render traced} {depth : Nat} {rule : Rule} {formula : String}

theorem appends_conclude {p : P} {plan : Plan S} (leaf : plan.children = [])
    (step : plan.step s.chance render depth = ⟨depth, rule, formula, p⟩) :
    Appends (conclude traced depth rule formula p) (.ok plan) (Plan.value s.chance)
      (recorded s render traced depth) := by
  intro log
  have found : plan.value s.chance = p := congrArg TraceStep.probability step
  show _ = Except.ok (plan.value s.chance, log ++ recorded s render traced depth plan)
  rw [run_conclude, recorded_eq, leaf, step, found, List.flatMap_nil, List.nil_append]

/-- A plan's step behind those of its parts. -/
theorem Appends.concluded {α β : Type} {pass : Recorder P α} {attempt : Except Unsupported β}
    {value : β → α} {written : β → List (TraceStep P)} {combine : α → P} {node : β → Plan S}
    (parts : Appends pass attempt value written)
    (children : ∀ b, attempt = .ok b →
      (node b).children.flatMap (recorded s render traced (depth + 1)) = written b)
    (step : ∀ b, attempt = .ok b →
      (node b).step s.chance render depth = ⟨depth, rule, formula, combine (value b)⟩) :
    Appends (pass >>= fun a => conclude traced depth rule formula (combine a)) (attempt.map node)
      (Plan.value s.chance) (recorded s render traced depth) := by
  intro log
  rw [StateT.run_bind, parts log]
  cases attempt with
  | error unsupported => rfl
  | ok b =>
    have found : (node b).value s.chance = combine (value b) :=
      congrArg TraceStep.probability (step b rfl)
    show (conclude traced depth rule formula (combine (value b))).run (log ++ written b) =
      Except.ok ((node b).value s.chance, log ++ recorded s render traced depth (node b))
    rw [run_conclude, recorded_eq, children b rfl, step b rfl, found, List.append_assoc]

theorem step_combine {combination : Combination} {subject : S} {parts : List (Plan S)} {count : Nat}
    (length : parts.length = count) :
    (Plan.combine combination subject parts).step s.chance render depth =
      ⟨depth, combination.rule count, render subject,
        combination.apply (parts.map (Plan.value s.chance))⟩ := by
  rw [← Plan.values_eq_map, ← length]
  rfl

/-- A combination of one part for each input. -/
theorem appends_combine {ι : Type} (render : S → String) {inputs : List ι} {pass : ι → Recorder P P}
    {attempt : ι → Except Unsupported (Plan S)} (combination : Combination) (subject : S)
    (each : ∀ i ∈ inputs, Appends (pass i) (attempt i) (Plan.value s.chance)
      (recorded s render traced (depth + 1))) :
    Appends
      (do
        let ps ← inputs.mapM pass
        conclude traced depth (combination.rule inputs.length) (render subject)
          (combination.apply ps))
      ((inputs.mapM attempt).map (.combine combination subject)) (Plan.value s.chance)
      (recorded s render traced depth) := by
  refine (Appends.mapM each).concluded (fun _ _ => rfl) fun plans made => ?_
  exact step_combine (mapM_eq_ok_iff.1 made).length_eq.symm

/-- A combination of two sides. -/
theorem appends_sides (render : S → String) {pass pass' : Recorder P P}
    {attempt attempt' : Except Unsupported (Plan S)} (combination : Combination) (subject : S)
    (left : Appends pass attempt (Plan.value s.chance) (recorded s render traced (depth + 1)))
    (right : Appends pass' attempt' (Plan.value s.chance) (recorded s render traced (depth + 1))) :
    Appends
      (do
        let p ← pass
        let q ← pass'
        conclude traced depth (combination.rule 2) (render subject) (combination.apply [p, q]))
      (do
        let left ← attempt
        let right ← attempt'
        return .combine combination subject [left, right])
      (Plan.value s.chance) (recorded s render traced depth) := by
  -- two passes in a row are the sequence of two inputs, each with its pass and its attempt
  have each : ∀ side ∈ [(pass, attempt), (pass', attempt')],
      Appends side.1 side.2 (Plan.value s.chance) (recorded s render traced (depth + 1)) :=
    List.forall_mem_cons.2 ⟨left, List.forall_mem_singleton.2 right⟩
  have both := appends_combine render combination subject each
  have drawn : ([(pass, attempt), (pass', attempt')].mapM Prod.snd).map
      (Plan.combine combination subject) = (do
        let left ← attempt
        let right ← attempt'
        return Plan.combine combination subject [left, right]) := by
    cases attempt <;> cases attempt' <;> rfl
  rw [drawn] at both
  simp only [List.mapM_cons, List.mapM_nil, bind_assoc, pure_bind] at both
  exact both

end Plans

/-! ## The passes append what the plans list -/

section Passes

variable [Arithmetic P] (s : Store P) (traced : Bool)

theorem appends_passAtoms (vars : List Name) (depth : Nat) (atoms : List Atom) :
    Appends (passAtoms s traced vars depth atoms) (Plan.ofAtoms vars s.domain atoms)
      (Plan.value s.chance)
      (recorded s (fun atoms => Query.displayOf (Query.occurring vars atoms) atoms) traced depth) := by
  fun_induction passAtoms s traced vars depth atoms with
  | case1 depth atoms unsupported rule =>
    rw [Plan.ofAtoms_of_error rule]
    exact fun _ => rfl
  | case2 depth atoms formula rule =>
    rw [Plan.ofAtoms_of_ground rule]
    refine appends_conclude rfl ?_
    rw [Plan.step, Plan.value, Plan.rule, List.length_map, List.map_map]
    rfl
  | case3 depth atoms formula parts rule ih =>
    rw [Plan.ofAtoms_of_split rule, List.mapM_subtype fun _ _ => rfl, List.unattach_attach]
    exact appends_combine _ .split atoms fun group listed => ih ⟨group, listed⟩
  | case4 depth atoms formula x rule ih =>
    rw [Plan.ofAtoms_of_eliminate rule]
    exact appends_combine _ (.eliminate x) atoms fun c _ => ih c

theorem appends_passFormula (depth : Nat) (f : Formula) :
    Appends (passFormula s traced depth f) (Plan.ofFormula s.domain f) (Plan.value s.chance)
      (recorded s Formula.display traced depth) := by
  fun_induction passFormula s traced depth f with
  | case1 depth f unsupported fault =>
    rw [Plan.ofFormula_of_fault fault]
    exact fun _ => rfl
  | case2 depth _ =>
    rw [Plan.ofFormula_truth]
    exact appends_conclude rfl rfl
  | case3 depth a fine =>
    rw [Plan.ofFormula_atom fine]
    exact appends_conclude rfl rfl
  | case4 depth g fine ih =>
    rw [Plan.ofFormula_not]
    refine ih.concluded (fun part _ => ?_) fun _ _ => rfl
    exact List.flatMap_singleton _ _
  | case5 depth g h fine ihg ihh =>
    rw [Plan.ofFormula_and fine]
    exact appends_sides Formula.display .split (.and g h) ihg ihh
  | case6 depth g h fine ihg ihh =>
    rw [Plan.ofFormula_or fine]
    exact appends_sides Formula.display .disjoin (.or g h) ihg ihh
  | case7 depth x g fine ih =>
    rw [Plan.ofFormula_exist fine]
    exact appends_combine Formula.display (.eliminate x) (.exist x g) fun c _ => ih c
  | case8 depth x g fine ih =>
    rw [Plan.ofFormula_forAll fine]
    exact appends_combine Formula.display (.universal x) (.forAll x g) fun c _ => ih c

/-- What a pass records from nothing is the trace. -/
theorem Appends.evaluate_eq {S : Type} {render : S → String} {pass : Recorder P P}
    {drawn : Except Unsupported (Plan S)} {options : Options}
    (appends : Appends pass drawn (Plan.value s.chance) (recorded s render options.trace 0)) :
    (do return (← drawn).evaluate render s options) = (do
      let (probability, trace) ← pass.run []
      return ⟨probability, trace⟩) := by
  rw [appends []]
  cases drawn <;> rfl

/-- **A query is evaluated in one pass**, after the check. -/
theorem Query.evaluate_eq_pass (q : Query) (options : Options) :
    q.evaluate s options = (do
      q.checkHierarchical
      let (probability, trace) ← (passAtoms s options.trace q.vars 0 q.atoms).run []
      return ⟨probability, trace⟩) := by
  have same := (appends_passAtoms s options.trace q.vars 0 q.atoms).evaluate_eq
  rw [← same, Query.evaluate, Query.plan, bind_assoc]
  rfl

/-- **A closed formula is evaluated in one pass.** -/
theorem Formula.evaluate_eq_pass (f : Formula) (options : Options) :
    f.evaluate s options = match f.freeVars with
      | x :: _ => .error (.freeVariable x f)
      | [] => do
        let (probability, trace) ← (passFormula s options.trace 0 f).run []
        return ⟨probability, trace⟩ := by
  rw [← (appends_passFormula s options.trace 0 f).evaluate_eq, Formula.evaluate, Formula.plan]
  cases f.freeVars <;> rfl

end Passes

end SafePlan
