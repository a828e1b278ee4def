/-
# SafePlan.Proofs.EmptyDomain — acceptance when there are no constants

Planning comes to the body of a quantifier through the constants of the domain
and tests a node when it comes to it. So what is accepted depends on the domain,
but only on whether it is empty: over an empty one, the nodes below quantifiers
are never tested (`exists_ofFormula_nil_iff`), and over any other, every node is.

Adding facts can thus turn an accepted formula into a rejected one, namely where
a node below a quantifier is the first to fail its test (`accepted_while_empty`).
It never does so in a store that has a constant already, and never the other way
round (`accepted_agree_iff`).
-/
import SafePlan.Proofs.Acceptance
import SafePlan.Proofs.FormulaLikelihood

set_option autoImplicit false

namespace SafePlan

namespace Formula

variable {f g : Formula} {x : Name}

/-- Every node passes its test. -/
def Passes (f : Formula) : Prop := ∀ entry ∈ f.nodes, entry.2.Independent

/-- Every node that stands below no quantifier passes its test. -/
def PassesOutside (f : Formula) : Prop := ∀ entry ∈ f.nodes, entry.1 = [] → entry.2.Independent

instance : DecidablePred Passes :=
  fun f => inferInstanceAs (Decidable (∀ entry ∈ f.nodes, entry.2.Independent))

instance : DecidablePred PassesOutside :=
  fun f => inferInstanceAs (Decidable (∀ entry ∈ f.nodes, entry.1 = [] → entry.2.Independent))

theorem Passes.outside (passes : f.Passes) : f.PassesOutside :=
  fun entry listed _ => passes entry listed

/-! ## Outside quantifiers -/

theorem mem_nodes_self (f : Formula) : ([], f) ∈ f.nodes := by
  cases f <;> simp [nodes]

theorem passesOutside_not : (Formula.not f).PassesOutside ↔ f.PassesOutside := by
  simp [PassesOutside, nodes, Independent]

theorem passesOutside_and (independent : (Formula.and f g).Independent) :
    (Formula.and f g).PassesOutside ↔ f.PassesOutside ∧ g.PassesOutside := by
  simp only [PassesOutside, nodes, List.forall_mem_cons, List.forall_mem_append, independent,
    implies_true, true_and]

theorem passesOutside_or (independent : (Formula.or f g).Independent) :
    (Formula.or f g).PassesOutside ↔ f.PassesOutside ∧ g.PassesOutside := by
  simp only [PassesOutside, nodes, List.forall_mem_cons, List.forall_mem_append, independent,
    implies_true, true_and]

/-- The nodes of a quantifier's body all stand below it. -/
theorem passesOutside_exist (independent : (Formula.exist x f).Independent) :
    (Formula.exist x f).PassesOutside := by
  rw [PassesOutside, nodes, List.forall_mem_cons, List.forall_mem_map]
  exact ⟨fun _ => independent, fun entry _ outside => absurd outside (List.cons_ne_nil _ _)⟩

theorem passesOutside_forAll (independent : (Formula.forAll x f).Independent) :
    (Formula.forAll x f).PassesOutside := by
  rw [PassesOutside, nodes, List.forall_mem_cons, List.forall_mem_map]
  exact ⟨fun _ => independent, fun entry _ outside => absurd outside (List.cons_ne_nil _ _)⟩

end Formula

/-! ## Plans -/

namespace Plan

variable {domain : List Name} {f g : Formula}

theorem exists_sides_iff (join : Plan Formula → Plan Formula → Plan Formula) :
    (∃ plan, (do
      let left ← ofFormula domain f
      let right ← ofFormula domain g
      return join left right) = .ok plan) ↔
        (∃ plan, ofFormula domain f = .ok plan) ∧ ∃ plan, ofFormula domain g = .ok plan := by
  constructor
  · rintro ⟨plan, drawn⟩
    obtain ⟨left, drawnLeft, drawnRight⟩ := bind_eq_ok_iff.1 drawn
    obtain ⟨right, drawnRight, -⟩ := bind_eq_ok_iff.1 drawnRight
    exact ⟨⟨left, drawnLeft⟩, right, drawnRight⟩
  · rintro ⟨drawnF, drawnG⟩
    exact exists_sides join drawnF drawnG

/-- **Without constants, no quantifier's body is tested.** By induction on
planning; a quantifier has no branch that could fail. -/
theorem exists_ofFormula_nil_iff (closed : f.freeOccurrences = []) :
    (∃ plan, ofFormula [] f = .ok plan) ↔ f.PassesOutside := by
  induction f using Plan.ofFormula.induct with
  | case1 f error fault =>
    obtain ⟨dependent, -⟩ := Formula.reports_of_fault? closed fault
    rw [ofFormula_of_fault fault]
    refine iff_of_false ?_ fun passes => dependent (passes ([], f) f.mem_nodes_self rfl)
    rintro ⟨_, drawn⟩
    cases drawn
  | case2 _ => exact iff_of_true ⟨_, ofFormula_truth⟩ (by decide)
  | case3 a fine =>
    refine iff_of_true ⟨_, ofFormula_atom fine⟩ ?_
    simp [Formula.PassesOutside, Formula.nodes, Formula.Independent]
  | case4 f fine ih =>
    rw [Formula.passesOutside_not, ← ih closed, ofFormula_not, exists_map_eq_ok_iff]
  | case5 f g fine ihf ihg =>
    obtain ⟨closedF, closedG⟩ := List.append_eq_nil_iff.1 closed
    rw [ofFormula_and fine, exists_sides_iff, ihf closedF, ihg closedG,
      Formula.passesOutside_and (Formula.independent_of_fault?_eq_none fine)]
  | case6 f g fine ihf ihg =>
    obtain ⟨closedF, closedG⟩ := List.append_eq_nil_iff.1 closed
    rw [ofFormula_or fine, exists_sides_iff, ihf closedF, ihg closedG,
      Formula.passesOutside_or (Formula.independent_of_fault?_eq_none fine)]
  | case7 x f fine _ =>
    exact iff_of_true ⟨_, ofFormula_exist fine⟩
      (Formula.passesOutside_exist (Formula.independent_of_fault?_eq_none fine))
  | case8 x f fine _ =>
    exact iff_of_true ⟨_, ofFormula_forAll fine⟩
      (Formula.passesOutside_forAll (Formula.independent_of_fault?_eq_none fine))

/-- With a constant, every node is tested. -/
theorem exists_ofFormula_iff (nonempty : domain ≠ []) (closed : f.freeOccurrences = []) :
    (∃ plan, ofFormula domain f = .ok plan) ↔ f.Passes := by
  obtain ⟨c, rest, rfl⟩ := List.exists_cons_of_ne_nil nonempty
  rw [Formula.Passes, ← Formula.firstDependent_eq_none_iff]
  refine ⟨fun ⟨plan, drawn⟩ => Option.eq_none_iff_forall_ne_some.2 ?_,
    exists_ofFormula (c :: rest) closed⟩
  rintro ⟨outer, node⟩ first
  obtain ⟨error, failed, -⟩ := failsFirst c rest closed outer node first
  rw [drawn] at failed
  cases failed

end Plan

/-! ## Stores -/

namespace Formula

variable {P : Type} [Arithmetic P] {f : Formula}

theorem accepted_iff_exists_ofFormula (closed : f.freeOccurrences = []) (s : Store P)
    (options : Options) :
    (∃ evaluation, f.evaluate s options = .ok evaluation) ↔
      ∃ plan, Plan.ofFormula s.domain f = .ok plan := by
  have planned : f.plan s.domain = Plan.ofFormula s.domain f := by
    rw [Formula.plan, freeVars, closed]
    rfl
  rw [evaluate, planned]
  exact exists_map_eq_ok_iff

/-- What a closed formula has to pass in a store. -/
theorem accepted_iff_passes (closed : f.freeOccurrences = []) (s : Store P) (options : Options) :
    (∃ evaluation, f.evaluate s options = .ok evaluation) ↔
      if s.domain = [] then f.PassesOutside else f.Passes := by
  rw [accepted_iff_exists_ofFormula closed]
  split <;> rename_i empty
  · rw [empty, Plan.exists_ofFormula_nil_iff closed]
  · exact Plan.exists_ofFormula_iff empty closed

/-- **Acceptance depends on the data only through whether there are any.** A closed
formula that is accepted in a store with a constant is accepted in every store.
Two stores agree about it exactly when both have a constant or neither has, or
when the nodes below its quantifiers pass their tests if the others do. -/
theorem accepted_agree_iff (f : Formula) (closed : f.isClosed = true) (s s' : Store P)
    (options options' : Options) :
    (s.domain ≠ [] → (∃ evaluation, f.evaluate s options = .ok evaluation) →
      ∃ evaluation, f.evaluate s' options' = .ok evaluation) ∧
    (((∃ evaluation, f.evaluate s options = .ok evaluation) ↔
        ∃ evaluation, f.evaluate s' options' = .ok evaluation) ↔
      ((s.domain = [] ↔ s'.domain = []) ∨ (f.PassesOutside → f.Passes))) := by
  have noFree : f.freeOccurrences = [] := List.isEmpty_iff.1 closed
  have outside : f.Passes → f.PassesOutside := Passes.outside
  rw [accepted_iff_passes noFree, accepted_iff_passes noFree]
  by_cases empty : s.domain = [] <;> by_cases empty' : s'.domain = [] <;>
    simp only [empty, empty', if_true, if_false] <;> tauto

/-- All nodes pass, so that the two stores agree though only one has constants. -/
theorem accepted_agree_stranded :
    stranded.isClosed = true ∧ (Store.empty : Store Rat).domain = [] ∧ Store.pair.domain ≠ [] ∧
      stranded.Passes ∧
      ((∃ evaluation, stranded.evaluate (Store.empty : Store Rat) {} = .ok evaluation) ↔
        ∃ evaluation, stranded.evaluate Store.pair {} = .ok evaluation) := by
  have closed : stranded.isClosed = true := by decide
  have passes : stranded.Passes := by decide +kernel
  obtain ⟨-, agree⟩ := accepted_agree_iff stranded closed (Store.empty : Store Rat) Store.pair {} {}
  exact ⟨closed, rfl, by decide +kernel, passes, agree.2 (.inr fun _ => passes)⟩

/-- `∃x (R(x) ∧ R(x))`. -/
def doubled : Formula :=
  .exist "x" (.and (.atom ⟨"R", [.var "x"]⟩) (.atom ⟨"R", [.var "x"]⟩))

/-- What is accepted while there are no facts can be rejected once there are. -/
theorem accepted_while_empty :
    doubled.isClosed = true ∧
      (∃ evaluation, doubled.evaluate (Store.empty : Store Rat) {} = .ok evaluation) ∧
      doubled.evaluate Store.pair {} = .error (.sharedRelation "R"
        (.and (.atom ⟨"R", [.const "a"]⟩) (.atom ⟨"R", [.const "a"]⟩))) := by
  have noFree : doubled.freeVars = [] := by decide
  have domain : Store.pair.domain = ["a", "b"] := by decide +kernel
  -- the body has no rule at the first constant
  have fault : ((Formula.and (.atom ⟨"R", [.var "x"]⟩) (.atom ⟨"R", [.var "x"]⟩)).substitute
      "x" "a").fault? = some (.sharedRelation "R"
        (.and (.atom ⟨"R", [.const "a"]⟩) (.atom ⟨"R", [.const "a"]⟩))) := by decide
  have rejected : Plan.ofFormula ["a", "b"] doubled = .error (.sharedRelation "R"
      (.and (.atom ⟨"R", [.const "a"]⟩) (.atom ⟨"R", [.const "a"]⟩))) := by
    rw [doubled, Plan.ofFormula_exist (by decide), List.mapM_cons, Plan.ofFormula_of_fault fault]
    rfl
  refine ⟨by decide, ?_, ?_⟩
  · exact (accepted_iff_exists_ofFormula (by decide) Store.empty {}).2
      ⟨_, Plan.ofFormula_exist (by decide)⟩
  · rw [evaluate, Formula.plan, noFree, domain, rejected]
    rfl

end Formula

end SafePlan
