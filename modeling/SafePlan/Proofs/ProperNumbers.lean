/-
# SafePlan.Proofs.ProperNumbers — every number is a probability, rounding included

A store is offered any doubles: what is not a number, what lies outside of `[0, 1]`, the
negative zero. What it keeps are probabilities made canonical (`Kept`), and evaluation
multiplies those and takes complements, from one and zero on. So every number of an
evaluation, the probability and that of each step of the trace, is `Arising` from what is
kept (`evaluation_arising`), whatever the arithmetic.

Little has to hold of the operations then (`FloatingPoint.Closed`): products and complements
do not lead out of the probabilities other than the negative zero, and making a probability
canonical changes the negative zero only. Those of doubles are like that (`doubles_closed`),
so no evaluation over doubles has a number that is improper (`Store.evaluation_doubles`).
-/
import SafePlan.Proofs.Derivation
import SafePlan.Proofs.Doubles
import SafePlan.Proofs.Population
import SafePlan.Proofs.Relevance

set_option autoImplicit false

namespace SafePlan

variable {P : Type} [Arithmetic P]

open Arithmetic (isProbability canonical)

/-! ## The numbers that are kept -/

/-- Zero, which is read for what is not stored, or a probability made canonical. -/
inductive Kept : P → Prop
  | zero : Kept Arithmetic.zero
  | canonical {p : P} : isProbability p = true → Kept (canonical p)

theorem Store.kept_chance (s : Store P) (fact : Fact) : Kept (s.chance fact) := by
  rw [chance]
  split
  · rename_i entry found
    obtain ⟨p, probable, same⟩ := s.probable entry (List.mem_of_find?_eq_some found)
    rw [same]
    exact .canonical probable
  · exact .zero

namespace InternedStore

variable {s : InternedStore P}

/-- Every number in the tables is one that was kept. -/
def Keeps (s : InternedStore P) : Prop :=
  ∀ relation rows, s.byRelation.get? relation = some rows →
    ∀ key p, rows.tuples.get? key = some p → Kept p

theorem Keeps.insert (keeps : Keeps s) (relation : Name) (tuple : List Name) {p : P}
    (kept : Kept p) : Keeps (s.insert relation tuple p) := by
  intro other rows found key q stored
  rw [byRelation_insert, Table.get?_insert] at found
  split at found
  · obtain rfl := Option.some.inj found
    rw [Table.get?_insert] at stored
    split at stored
    · obtain rfl := Option.some.inj stored
      exact kept
    · -- an older tuple, so the relation was there before
      rw [InternedStore.rows] at stored
      cases existing : s.byRelation.get? relation with
      | none =>
        rw [existing] at stored
        cases stored
      | some before =>
        rw [existing] at stored
        exact keeps relation before existing key q stored
  · exact keeps other rows found key q stored

/-- **Whatever is attempted, only such numbers are in the tables.** -/
theorem keeps_run (attempts : List (Attempt P)) : Keeps (run attempts).1 := by
  induction attempts using List.reverseRecOn with
  | nil =>
    intro relation rows found
    cases found
  | append_singleton attempts a ih =>
    rw [run_concat, attempt]
    split <;> rename_i outcome
    · obtain ⟨accepted, rfl⟩ := add_eq_ok_iff.1 outcome
      obtain ⟨-, probable, -, -⟩ := Store.complaint?_eq_none_iff.1 accepted
      exact ih.insert a.relation _ (.canonical probable)
    · exact ih

theorem Keeps.kept_chance (keeps : Keeps s) (fact : Fact) : Kept (s.chance fact) := by
  rw [chance, lookup]
  split
  · exact .zero
  · rename_i rows found
    split
    · split
      · exact .zero
      · rename_i key _
        cases stored : rows.tuples.get? key with
        | none => exact .zero
        | some p => exact keeps _ rows found key p stored
    · exact .zero

end InternedStore

/-! ## The numbers of an evaluation -/

/-- All numbers of an evaluation: the probability, and that of every step. -/
structure Evaluation.All (numbers : P → Prop) (e : Evaluation P) : Prop where
  probability : numbers e.probability
  steps : ∀ step ∈ e.trace, numbers step.probability

omit [Arithmetic P] in
theorem Evaluation.All.imp {numbers others : P → Prop} {e : Evaluation P} (all : e.All numbers)
    (imp : ∀ p, numbers p → others p) : e.All others :=
  ⟨imp _ all.probability, fun step listed => imp _ (all.steps step listed)⟩

namespace Plan

variable {S : Type} {given : P → Prop} {chance : Fact → P}

/-- The value of a node comes from those of its children by products and complements. -/
theorem arising_value (reads : ∀ fact, given (chance fact)) (plan : Plan S) :
    Arising given (plan.value chance) := by
  induction plan using childrenInduction with
  | node plan ih =>
    cases plan with
    | ground subject facts =>
      exact Arithmetic.arising_all (List.forall_mem_map.2 fun fact _ => .given (reads fact))
    | lookup subject fact => exact .given (reads fact)
    | negate subject part => exact .complement (ih part (List.mem_singleton_self part))
    | combine combination subject parts =>
      have arise : ∀ p ∈ parts.map (value chance), Arising given p := List.forall_mem_map.2 ih
      rw [value, values_eq_map]
      cases combination with
      | split | universal x => exact Arithmetic.arising_all arise
      | disjoin | eliminate x => exact Arithmetic.arising_any arise

theorem arising_steps (reads : ∀ fact, given (chance fact)) (render : S → String) (depth : Nat)
    (plan : Plan S) : ∀ step ∈ plan.steps chance render depth, Arising given step.probability := by
  induction plan using childrenInduction generalizing depth with
  | node plan ih =>
    intro step listed
    rw [steps_eq, List.mem_append, List.mem_flatMap, List.mem_singleton] at listed
    rcases listed with ⟨part, isPart, below⟩ | rfl
    · exact ih part isPart (depth + 1) step below
    · exact arising_value reads plan

/-- An evaluation shows the value of the plan that was drawn, and its steps. -/
theorem evaluation_arising (reads : ∀ fact, given (chance fact)) {render : S → String}
    {options : Options} {drawn : Except Unsupported (Plan S)} {e : Evaluation P}
    (accepted : (do
      let plan ← drawn
      return Evaluation.mk (plan.value chance)
        (if options.trace then plan.steps chance render 0 else [])) = .ok e) :
    e.All (Arising given) := by
  obtain ⟨plan, -, ⟨⟩⟩ := bind_eq_ok_iff.1 accepted
  refine ⟨arising_value reads plan, fun step listed => ?_⟩
  dsimp only at listed
  split at listed
  · exact arising_steps reads render 0 plan step listed
  · cases listed

end Plan

section Evaluations

variable {options : Options} {e : Evaluation P}

/-- Every number of an evaluation is made of what the store keeps. -/
theorem Store.evaluation_arising (s : Store P) :
    (∀ q : Query, q.evaluate s options = .ok e → e.All (Arising Kept)) ∧
      ∀ f : Formula, f.evaluate s options = .ok e → e.All (Arising Kept) :=
  ⟨fun _ => Plan.evaluation_arising s.kept_chance, fun _ => Plan.evaluation_arising s.kept_chance⟩

theorem InternedStore.Keeps.evaluation_arising {s : InternedStore P} (keeps : s.Keeps) :
    (∀ q : Query, q.evaluateIn s options = .ok e → e.All (Arising Kept)) ∧
      ∀ f : Formula, f.evaluateIn s options = .ok e → e.All (Arising Kept) :=
  ⟨fun _ => Plan.evaluation_arising keeps.kept_chance,
    fun _ => Plan.evaluation_arising keeps.kept_chance⟩

end Evaluations

/-! ## Floating point -/

/-- What floating point has beside proper numbers; zero and one are proper. -/
structure FloatingPoint (P : Type) [Arithmetic P] where
  isNaN : P → Prop
  negativeZero : P
  nan_outside : ∀ p, isNaN p → isProbability p = false
  zero_inside : isProbability (Arithmetic.zero : P) = true
  zero_ne : Arithmetic.zero ≠ negativeZero
  one_inside : isProbability (Arithmetic.one : P) = true
  one_ne : Arithmetic.one ≠ negativeZero

namespace FloatingPoint

variable (fp : FloatingPoint P)

/-- A member of `[0, 1]` other than the negative zero. -/
structure Member (p : P) : Prop where
  inside : isProbability p = true
  notNegative : p ≠ fp.negativeZero

/-- What is relied on: rounding does not lead out of the members, and adding zero leaves
them as they are and clears the sign of the negative zero. -/
structure Closed : Prop where
  mul : ∀ p q, fp.Member p → fp.Member q → fp.Member (Arithmetic.mul p q)
  complement : ∀ p, fp.Member p → fp.Member (Arithmetic.complement p)
  canonical_member : ∀ p, fp.Member p → canonical p = p
  canonical_negativeZero : canonical fp.negativeZero = Arithmetic.zero

/-- A member that is a number. -/
structure Proper (p : P) : Prop extends fp.Member p where
  notNaN : ¬ fp.isNaN p

theorem member_zero : fp.Member Arithmetic.zero := ⟨fp.zero_inside, fp.zero_ne⟩

theorem member_one : fp.Member Arithmetic.one := ⟨fp.one_inside, fp.one_ne⟩

variable {fp}

theorem Closed.member_of_kept (closed : fp.Closed) {p : P} (kept : Kept p) : fp.Member p := by
  cases kept with
  | zero => exact fp.member_zero
  | @canonical p probable =>
    by_cases negative : p = fp.negativeZero
    · rw [negative, closed.canonical_negativeZero]
      exact fp.member_zero
    · have member : fp.Member p := ⟨probable, negative⟩
      rwa [closed.canonical_member p member]

theorem Closed.member_of_arising (closed : fp.Closed) {p : P} (arising : Arising Kept p) :
    fp.Member p := by
  induction arising with
  | given kept => exact closed.member_of_kept kept
  | one => exact fp.member_one
  | mul _ _ first second => exact closed.mul _ _ first second
  | complement _ member => exact closed.complement _ member

theorem Closed.proper_of_arising (closed : fp.Closed) (p : P) (arising : Arising Kept p) :
    fp.Proper p := by
  have member := closed.member_of_arising arising
  refine ⟨member, fun nan => ?_⟩
  have inside := member.inside
  rw [fp.nan_outside p nan] at inside
  cases inside

end FloatingPoint

/-! ## Doubles -/

def doubles : FloatingPoint Float where
  isNaN p := p.isNaN = true
  negativeZero := -0.0
  nan_outside p nan := isProbability_eq_false_iff.2 (.inl nan)
  zero_inside := by decide
  zero_ne := by decide
  one_inside := by decide
  one_ne := by decide

theorem isProbability_iff (p : Float) : isProbability p = true ↔ 0.0 ≤ p ∧ p ≤ 1.0 := by
  show (decide (0.0 ≤ p) && decide (p ≤ 1.0)) = true ↔ _
  rw [Bool.and_eq_true, decide_eq_true_iff, decide_eq_true_iff]

theorem doubles_member_iff (p : Float) : doubles.Member p ↔ Fraction p.toModel.unpack := by
  rw [Fraction.fraction_unpack_iff, ← isProbability_iff]
  exact ⟨fun member => ⟨member.inside, member.notNegative⟩, fun member => ⟨member.1, member.2⟩⟩

/-- **Doubles are closed,** with every product and complement rounded to the nearest. -/
theorem doubles_closed : doubles.Closed where
  mul p q := by
    simp only [doubles_member_iff]
    exact Fraction.fraction_unpack_mul
  complement p := by
    simp only [doubles_member_iff]
    exact Fraction.fraction_unpack_one_sub
  canonical_member p member := Fraction.add_zero_of_fraction ((doubles_member_iff p).1 member)
  canonical_negativeZero := Fraction.negZero_add_zero

/-- Every double of an evaluation is of `[0, 1]`, a number, and not negative. -/
theorem Store.evaluation_doubles (s : Store Float) {options : Options} {e : Evaluation Float} :
    (∀ q : Query, q.evaluate s options = .ok e →
      e.All fun p => (0.0 ≤ p ∧ p ≤ 1.0) ∧ ¬ p.isNaN = true ∧ p ≠ -0.0) ∧
    ∀ f : Formula, f.evaluate s options = .ok e →
      e.All fun p => (0.0 ≤ p ∧ p ≤ 1.0) ∧ ¬ p.isNaN = true ∧ p ≠ -0.0 := by
  have proper : ∀ p : Float, Arising Kept p →
      (0.0 ≤ p ∧ p ≤ 1.0) ∧ ¬ p.isNaN = true ∧ p ≠ -0.0 := by
    intro p arising
    have proper := doubles_closed.proper_of_arising p arising
    exact ⟨(isProbability_iff p).1 proper.inside, proper.notNaN, proper.notNegative⟩
  exact ⟨fun q accepted => (s.evaluation_arising.1 q accepted).imp proper,
    fun f accepted => (s.evaluation_arising.2 f accepted).imp proper⟩

/-! ## Evaluations -/

/-- **Every number is a proper probability.** After any attempts to add facts, at whatever
numbers, what is read for a fact, what an accepted query or formula evaluates to and what
each step of the trace says lies in `[0, 1]`, is a number, and is not the negative zero. -/
theorem proper_evaluations {fp : FloatingPoint P} (closed : fp.Closed) (attempts : List (Attempt P))
    (options : Options) :
    (∀ fact, fp.Proper ((InternedStore.run attempts).1.chance fact)) ∧
    (∀ (q : Query) e, q.evaluateIn (InternedStore.run attempts).1 options = .ok e ∨
      q.evaluate (Store.run attempts) options = .ok e → e.All fp.Proper) ∧
    ∀ (f : Formula) e, f.evaluateIn (InternedStore.run attempts).1 options = .ok e ∨
      f.evaluate (Store.run attempts) options = .ok e → e.All fp.Proper := by
  have keeps := InternedStore.keeps_run attempts
  refine ⟨fun fact => closed.proper_of_arising _ (.given (keeps.kept_chance fact)), ?_, ?_⟩
  · rintro q e (accepted | accepted)
    · exact (keeps.evaluation_arising.1 q accepted).imp closed.proper_of_arising
    · exact ((Store.run attempts).evaluation_arising.1 q accepted).imp closed.proper_of_arising
  · rintro f e (accepted | accepted)
    · exact (keeps.evaluation_arising.2 f accepted).imp closed.proper_of_arising
    · exact ((Store.run attempts).evaluation_arising.2 f accepted).imp closed.proper_of_arising

/-- The negative zero is kept as zero, what is not a number or above one is refused. -/
def offered : List (Attempt Float) :=
  [⟨"R", [.const "a"], -0.0⟩, ⟨"R", [.const "b"], 0.0 / 0.0⟩, ⟨"R", [.const "b"], 0.1⟩,
    ⟨"S", [.const "a", .const "b"], 1.5⟩, ⟨"S", [.const "a", .const "b"], 0.7⟩]

/-- `∀x (R(x) ∨ ¬S(a, x))`. -/
def everywhere : Formula :=
  .forAll "x" (.or (.atom ⟨"R", [.var "x"]⟩) (.not (.atom ⟨"S", [.const "a", .var "x"]⟩)))

/-- Both forms of the store, and all six rules in one evaluation or the other. -/
theorem proper_evaluations_offered :
    doubles.Closed ∧
    ((InternedStore.run offered).1.tuples "R", (InternedStore.run offered).1.tuples "S") =
      ([(["a"], 0.0), (["b"], 0.1)], [(["a", "b"], 0.7)]) ∧
    (∃ e, Query.reachable.evaluate (Store.run offered) { trace := true } = .ok e ∧
      e.All doubles.Proper) ∧
    ∃ e, everywhere.evaluateIn (InternedStore.run offered).1 { trace := true } = .ok e ∧
      e.trace.length = 9 ∧ e.All doubles.Proper := by
  have hierarchical : Query.reachable.checkHierarchical = .ok () := by decide
  have traced : (everywhere.evaluateIn (InternedStore.run offered).1
      { trace := true }).toOption.map (·.trace.length) = some 9 := by decide +kernel
  obtain ⟨e, accepted, -⟩ :=
    Query.reachable.evaluate_eq_valueOfAtoms hierarchical (Store.run offered) { trace := true }
  obtain ⟨e', accepted', steps⟩ := Option.map_eq_some_iff.1 traced
  rw [toOption_eq_some_iff] at accepted'
  obtain ⟨-, queries, formulas⟩ := proper_evaluations doubles_closed offered { trace := true }
  exact ⟨doubles_closed, by decide +kernel, ⟨e, accepted, queries _ e (.inr accepted)⟩,
    e', accepted', steps, formulas _ e' (.inl accepted')⟩

end SafePlan
