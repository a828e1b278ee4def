/-
# SafePlan.Proofs.Safety — a safe plan's value is the likelihood of its event

A plan stands for an event: its leaves say that facts are present, its nodes
combine truths the way `Combination.apply` combines probabilities. It also
reads facts, and it is safe when no fact is read twice by independent parts.

`Plan.Safe.value_eq` is the reason for all of that: over exact numbers, the
value of a safe plan in a store is the likelihood of its event there. What
remains for each way of drawing plans is to show that they are safe and that
their events are the intended ones.
-/
import SafePlan.Plan
import SafePlan.Proofs.Likelihood

set_option autoImplicit false

namespace SafePlan

namespace Combination

/-- The truth of the whole from the truths of the parts. -/
def holds : Combination → List Prop → Prop
  | .split, truths => ∀ truth ∈ truths, truth
  | .disjoin, truths => ∃ truth ∈ truths, truth
  | .eliminate _, truths => ∃ truth ∈ truths, truth
  | .universal _, truths => ∀ truth ∈ truths, truth

section Holds

variable {ι : Type} {parts : List ι} {truth : ι → Prop} {x : Name}

theorem holds_split : split.holds (parts.map truth) ↔ ∀ i ∈ parts, truth i := by
  rw [holds, List.forall_mem_map]

theorem holds_disjoin : disjoin.holds (parts.map truth) ↔ ∃ i ∈ parts, truth i := by
  simp only [holds, List.mem_map, exists_exists_and_eq_and]

theorem holds_eliminate : (eliminate x).holds (parts.map truth) ↔ ∃ i ∈ parts, truth i := by
  simp only [holds, List.mem_map, exists_exists_and_eq_and]

theorem holds_universal : (universal x).holds (parts.map truth) ↔ ∀ i ∈ parts, truth i := by
  rw [holds, List.forall_mem_map]

end Holds

end Combination

namespace Plan

variable {S : Type}

/-! ## Events and reads -/

mutual

/-- Whether the plan's event happens in a world. -/
def Holds (world : World) : Plan S → Prop
  | .ground _ facts => ∀ fact ∈ facts, world fact
  | .lookup _ fact => world fact
  | .negate _ part => ¬ Holds world part
  | .combine combination _ parts => combination.holds (truths world parts)

def truths (world : World) : List (Plan S) → List Prop
  | [] => []
  | plan :: rest => Holds world plan :: truths world rest

end

theorem truths_eq_map (world : World) (plans : List (Plan S)) :
    truths world plans = plans.map (Holds world) := by
  induction plans with
  | nil => rfl
  | cons plan rest ih => rw [truths, ih, List.map_cons]

mutual

/-- The facts of the leaves. -/
def reads : Plan S → List Fact
  | .ground _ facts => facts
  | .lookup _ fact => [fact]
  | .negate _ part => reads part
  | .combine _ _ parts => readsOfAll parts

def readsOfAll : List (Plan S) → List Fact
  | [] => []
  | plan :: rest => reads plan ++ readsOfAll rest

end

theorem readsOfAll_eq_flatMap (plans : List (Plan S)) : readsOfAll plans = plans.flatMap reads := by
  induction plans with
  | nil => rfl
  | cons plan rest ih => rw [readsOfAll, ih, List.flatMap_cons]

/-- No fact stands twice in a leaf or in two parts of a combination. -/
inductive Safe : Plan S → Prop
  | ground {subject : S} {facts : List Fact} : facts.Nodup → Safe (.ground subject facts)
  | lookup {subject : S} {fact : Fact} : Safe (.lookup subject fact)
  | negate {subject : S} {part : Plan S} : Safe part → Safe (.negate subject part)
  | combine {combination : Combination} {subject : S} {parts : List (Plan S)} :
      (∀ part ∈ parts, Safe part) →
        (parts.Pairwise fun part other => part.reads.Disjoint other.reads) →
          Safe (.combine combination subject parts)

section Combine

variable {combination : Combination} {subject : S} {parts : List (Plan S)} {world : World}

theorem mem_reads_combine {fact : Fact} :
    fact ∈ (combine combination subject parts).reads ↔ ∃ part ∈ parts, fact ∈ part.reads := by
  rw [reads, readsOfAll_eq_flatMap, List.mem_flatMap]

theorem holds_combine :
    (combine combination subject parts).Holds world ↔ combination.holds (parts.map (Holds world)) := by
  rw [Holds, truths_eq_map]

end Combine

/-- A plan's event depends on what the plan reads. -/
theorem dependsOn_reads {plan : Plan S} (safe : plan.Safe) :
    DependsOn (fun world => plan.Holds world) plan.reads := by
  induction safe with
  | ground distinct =>
    intro world world' agree
    exact forall₂_congr agree
  | @lookup subject fact =>
    intro world world' agree
    exact agree fact (List.mem_singleton_self fact)
  | negate _ ih => exact ih.not
  | @combine combination subject parts _ _ ih =>
    intro world world' agree
    have same : parts.map (Holds world) = parts.map (Holds world') := by
      refine List.map_congr_left fun part listed => propext ?_
      refine ih part listed world world' fun fact read => agree fact ?_
      exact mem_reads_combine.2 ⟨part, listed, read⟩
    show Holds world (.combine combination subject parts) ↔
      Holds world' (.combine combination subject parts)
    rw [holds_combine, holds_combine, same]

end Plan

/-! ## Values -/

namespace Arithmetic

theorem all_eq_prod (chances : List Rat) : all chances = chances.prod := by
  rw [List.prod_eq_foldl]
  rfl

theorem any_eq_one_sub_prod (chances : List Rat) :
    any chances = 1 - (chances.map fun p => 1 - p).prod := by
  rw [any, all_eq_prod]
  rfl

end Arithmetic

namespace Plan

variable {S : Type}

/-- The independent parts of a combination, as events. -/
theorem likelihood_combine {s : Store Rat} {combination : Combination} {subject : S}
    {parts : List (Plan S)} (safe : ∀ part ∈ parts, part.Safe)
    (apart : parts.Pairwise fun part other => part.reads.Disjoint other.reads) :
    s.likelihood (combine combination subject parts).Holds =
      combination.apply (parts.map fun part => s.likelihood part.Holds) := by
  have depends : ∀ part ∈ parts, DependsOn (fun world => part.Holds world) part.reads :=
    fun part listed => dependsOn_reads (safe part listed)
  have every := likelihood_forall s.chance s.facts depends apart
  have some := likelihood_exists s.chance s.facts depends apart
  cases combination with
  | split =>
    rw [Combination.apply, Arithmetic.all_eq_prod]
    exact (likelihood_congr fun _ => holds_combine.trans Combination.holds_split).trans every
  | disjoin =>
    rw [Combination.apply, Arithmetic.any_eq_one_sub_prod, List.map_map]
    exact (likelihood_congr fun _ => holds_combine.trans Combination.holds_disjoin).trans some
  | eliminate x =>
    rw [Combination.apply, Arithmetic.any_eq_one_sub_prod, List.map_map]
    exact (likelihood_congr fun _ => holds_combine.trans Combination.holds_eliminate).trans some
  | universal x =>
    rw [Combination.apply, Arithmetic.all_eq_prod]
    exact (likelihood_congr fun _ => holds_combine.trans Combination.holds_universal).trans every

/-- **The value of a safe plan is the likelihood of its event.** By induction
on the plan: the facts of a leaf are independent of each other, and so are the
parts of a combination, since they read different facts. -/
theorem Safe.value_eq {plan : Plan S} (safe : plan.Safe) (s : Store Rat) :
    plan.value s.chance = s.likelihood plan.Holds := by
  induction safe with
  | @ground subject facts distinct =>
    have depends : ∀ fact ∈ facts, DependsOn (fun world => world fact) [fact] :=
      fun fact _ world world' agree => agree fact (by simp)
    have apart : facts.Pairwise fun fact other => [fact].Disjoint [other] :=
      distinct.imp fun different => by simpa using different.symm
    have independent := likelihood_forall s.chance s.facts depends apart
    rw [value, Arithmetic.all_eq_prod]
    refine Eq.trans ?_ independent.symm
    exact congrArg _ (List.map_congr_left fun fact _ => (s.likelihood_fact fact).symm)
  | @lookup subject fact => exact (s.likelihood_fact fact).symm
  | @negate subject part _ ih =>
    rw [value, ih]
    exact (likelihood_not fun world => part.Holds world).symm
  | @combine combination subject parts safe apart ih =>
    rw [value, values_eq_map, likelihood_combine safe apart, List.map_congr_left ih]

end Plan

end SafePlan
