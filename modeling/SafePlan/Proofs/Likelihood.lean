/-
# SafePlan.Proofs.Likelihood — the probability of an event over possible worlds

A store gives each of its facts a probability and makes them independent. So
its possible worlds are the subsets of the stored facts: a world weighs the
probabilities of the facts in it times the complements of the others'. The
likelihood of an event is what the worlds in which it happens weigh together.

An event that depends on some facts only is independent of one that depends on
others only (`likelihood_and`), and so are any number of events that depend on
facts apart (`likelihood_forall`, `likelihood_exists`). A fact that is not
stored is in no world, and its likelihood is what the store answers for it,
zero (`Store.likelihood_fact`).
-/
import SafePlan.Store
import SafePlan.World
import Mathlib.Algebra.BigOperators.Group.Finset.Powerset
import Mathlib.Algebra.BigOperators.Group.List.Basic
import Mathlib.Algebra.BigOperators.Ring.Finset
import Mathlib.Algebra.Order.Field.Rat
import Mathlib.Tactic.Ring

set_option autoImplicit false

namespace SafePlan

/-- What happens in some worlds and not in others. -/
abbrev Event := World → Prop

/-- What the world weighs that holds just the `present` ones of some facts. -/
def weightIn (chance : Fact → Rat) (facts present : Finset Fact) : Rat :=
  (∏ fact ∈ present, chance fact) * ∏ fact ∈ facts \ present, (1 - chance fact)

open Classical in
/-- What the worlds of some facts weigh in which an event happens. -/
noncomputable def likelihood (chance : Fact → Rat) (facts : Finset Fact) (event : Event) : Rat :=
  ∑ present ∈ facts.powerset with event (· ∈ present), weightIn chance facts present

/-- The event looks at no other facts than these. -/
def DependsOn (event : Event) (reads : List Fact) : Prop :=
  ∀ world world' : World, (∀ fact ∈ reads, world fact ↔ world' fact) → (event world ↔ event world')

/-- The event in the world with one more fact. -/
def Event.given (event : Event) (fact : Fact) : Event :=
  fun world => event fun other => other = fact ∨ world other

section Events

variable {event other : Event} {reads others : List Fact}

theorem DependsOn.mono (depends : DependsOn event reads) (subset : reads ⊆ others) :
    DependsOn event others :=
  fun world world' agree => depends world world' fun fact listed => agree fact (subset listed)

theorem DependsOn.given (depends : DependsOn event reads) (fact : Fact) :
    DependsOn (event.given fact) reads :=
  fun _ _ agree => depends _ _ fun other listed => or_congr_right (agree other listed)

theorem DependsOn.not (depends : DependsOn event reads) :
    DependsOn (fun world => ¬ event world) reads :=
  fun world world' agree => not_congr (depends world world' agree)

/-- A fact that an event does not look at makes no difference to it. -/
theorem DependsOn.given_eq (depends : DependsOn event reads) {fact : Fact}
    (unread : fact ∉ reads) : event.given fact = event := by
  funext world
  refine propext (depends _ _ fun other listed => ?_)
  have different : other ≠ fact := by
    rintro rfl
    exact unread listed
  simp [different]

end Events

/-! ## One fact more -/

section Facts

variable {chance : Fact → Rat} {facts : Finset Fact}

theorem likelihood_empty (event : Event) [Decidable (event fun _ => False)] :
    likelihood chance ∅ event = if event (fun _ => False) then 1 else 0 := by
  by_cases happens : event fun _ => False <;>
    simp [likelihood, weightIn, Finset.filter_singleton, happens]

theorem weightIn_insert_of_absent {fact : Fact} (fresh : fact ∉ facts) {present : Finset Fact}
    (subset : present ⊆ facts) :
    weightIn chance (insert fact facts) present =
      (1 - chance fact) * weightIn chance facts present := by
  have absent : fact ∉ present := fun listed => fresh (subset listed)
  rw [weightIn, weightIn, Finset.insert_sdiff_of_notMem _ absent, Finset.prod_insert (by simp [fresh])]
  ring

theorem weightIn_insert_of_present {fact : Fact} (fresh : fact ∉ facts) {present : Finset Fact}
    (subset : present ⊆ facts) :
    weightIn chance (insert fact facts) (insert fact present) =
      chance fact * weightIn chance facts present := by
  have absent : fact ∉ present := fun listed => fresh (subset listed)
  have rest : insert fact facts \ insert fact present = facts \ present := by
    rw [Finset.insert_sdiff_insert]
    exact Finset.sdiff_insert_of_notMem fresh _
  rw [weightIn, weightIn, rest, Finset.prod_insert absent]
  ring

/-- A fact is present or it is not. -/
theorem likelihood_insert {fact : Fact} (fresh : fact ∉ facts) (event : Event) :
    likelihood chance (insert fact facts) event =
      chance fact * likelihood chance facts (event.given fact) +
        (1 - chance fact) * likelihood chance facts event := by
  classical
  unfold likelihood
  simp only [Finset.sum_filter]
  rw [Finset.sum_powerset_insert fresh, Finset.mul_sum, Finset.mul_sum, add_comm]
  congr 1 <;> refine Finset.sum_congr rfl fun present member => ?_
  · have subset := Finset.mem_powerset.1 member
    have sameWorld : event (· ∈ insert fact present) ↔ event.given fact (· ∈ present) := by
      simp only [Event.given, Finset.mem_insert]
    by_cases happens : event.given fact (· ∈ present)
    · rw [if_pos happens, if_pos (sameWorld.2 happens), weightIn_insert_of_present fresh subset]
    · rw [if_neg happens, if_neg (mt sameWorld.1 happens), mul_zero]
  · have subset := Finset.mem_powerset.1 member
    by_cases happens : event (· ∈ present)
    · rw [if_pos happens, if_pos happens, weightIn_insert_of_absent fresh subset]
    · rw [if_neg happens, if_neg happens, mul_zero]

theorem likelihood_true (chance : Fact → Rat) (facts : Finset Fact) :
    likelihood chance facts (fun _ => True) = 1 := by
  induction facts using Finset.induction_on with
  | empty => rw [likelihood_empty, if_pos trivial]
  | insert fact facts fresh ih =>
    rw [likelihood_insert fresh]
    have sure : Event.given (fun _ => True) fact = fun _ => True := rfl
    rw [sure, ih]
    ring

theorem likelihood_not (event : Event) :
    likelihood chance facts (fun world => ¬ event world) = 1 - likelihood chance facts event := by
  classical
  have total := likelihood_true chance facts
  unfold likelihood at total ⊢
  rw [Finset.sum_filter] at total
  simp only [if_true] at total
  rw [← total, eq_sub_iff_add_eq, add_comm]
  simp only [Finset.sum_filter, ← Finset.sum_add_distrib]
  refine Finset.sum_congr rfl fun present _ => ?_
  by_cases happens : event (· ∈ present) <;> simp [happens]

theorem likelihood_congr {event event' : Event} (same : ∀ world, event world ↔ event' world) :
    likelihood chance facts event = likelihood chance facts event' := by
  rw [show event = event' from funext fun world => propext (same world)]

/-! ## Independence -/

/-- **Events that depend on facts apart are independent.** By induction on the
facts: each is read by at most one of the two events. -/
theorem likelihood_and {event other : Event} {reads others : List Fact}
    (depends : DependsOn event reads) (depends' : DependsOn other others)
    (apart : reads.Disjoint others) :
    likelihood chance facts (fun world => event world ∧ other world) =
      likelihood chance facts event * likelihood chance facts other := by
  classical
  induction facts using Finset.induction_on generalizing event other with
  | empty =>
    rw [likelihood_empty, likelihood_empty, likelihood_empty]
    by_cases first : event fun _ => False <;> by_cases second : other fun _ => False <;>
      simp [first, second]
  | insert fact facts fresh ih =>
    have both : Event.given (fun world => event world ∧ other world) fact =
        fun world => event.given fact world ∧ other.given fact world := rfl
    rw [likelihood_insert fresh, likelihood_insert fresh, likelihood_insert fresh, both,
      ih depends depends', ih (depends.given fact) (depends'.given fact)]
    by_cases readFirst : fact ∈ reads
    · rw [depends'.given_eq fun readSecond => apart readFirst readSecond]
      ring
    · rw [depends.given_eq readFirst]
      ring

variable {ι : Type} {parts : List ι} {event : ι → Event} {reads : ι → List Fact}

theorem dependsOn_forall (depends : ∀ i ∈ parts, DependsOn (event i) (reads i)) :
    DependsOn (fun world => ∀ i ∈ parts, event i world) (parts.flatMap reads) := by
  intro world world' agree
  refine forall₂_congr fun i listed => depends i listed world world' fun fact read => ?_
  exact agree fact (List.mem_flatMap.2 ⟨i, listed, read⟩)

theorem likelihood_forall (chance : Fact → Rat) (facts : Finset Fact)
    (depends : ∀ i ∈ parts, DependsOn (event i) (reads i))
    (apart : parts.Pairwise fun i j => (reads i).Disjoint (reads j)) :
    likelihood chance facts (fun world => ∀ i ∈ parts, event i world) =
      (parts.map fun i => likelihood chance facts (event i)).prod := by
  induction parts with
  | nil => simpa using likelihood_true chance facts
  | cons first rest ih =>
    obtain ⟨fromFirst, apart'⟩ := List.pairwise_cons.1 apart
    have dependsRest : ∀ i ∈ rest, DependsOn (event i) (reads i) :=
      fun i listed => depends i (List.mem_cons_of_mem _ listed)
    have unshared : (reads first).Disjoint (rest.flatMap reads) := by
      intro fact readFirst readRest
      obtain ⟨i, listed, read⟩ := List.mem_flatMap.1 readRest
      exact fromFirst i listed readFirst read
    rw [List.map_cons, List.prod_cons, ← ih dependsRest apart',
      ← likelihood_and (depends first (by simp)) (dependsOn_forall dependsRest) unshared]
    exact likelihood_congr fun world => by simp

theorem likelihood_exists (chance : Fact → Rat) (facts : Finset Fact)
    (depends : ∀ i ∈ parts, DependsOn (event i) (reads i))
    (apart : parts.Pairwise fun i j => (reads i).Disjoint (reads j)) :
    likelihood chance facts (fun world => ∃ i ∈ parts, event i world) =
      1 - (parts.map fun i => 1 - likelihood chance facts (event i)).prod := by
  have none := likelihood_forall chance facts (fun i listed => (depends i listed).not) apart
  simp only [likelihood_not] at none
  rw [← none, ← likelihood_not]
  exact likelihood_congr fun world => by simp

end Facts

/-! ## In a store -/

namespace Store

/-- The facts that are kept. -/
def facts {P : Type} [Arithmetic P] (s : Store P) : Finset Fact :=
  (s.entries.map Prod.fst).toFinset

/-- What the possible worlds of a store weigh in which an event happens. -/
noncomputable def likelihood (s : Store Rat) (event : Event) : Rat :=
  SafePlan.likelihood s.chance s.facts event

theorem nodup_domain {P : Type} [Arithmetic P] (s : Store P) : s.domain.Nodup := by
  refine List.Pairwise.imp ?_ (NameSet.increasing_ofList _)
  rintro c d before rfl
  exact String.lt_irrefl c before

theorem chance_of_not_mem {s : Store Rat} {fact : Fact} (absent : fact ∉ s.facts) :
    s.chance fact = 0 := by
  have unfound : s.entries.find? (·.1 = fact) = none := by
    refine List.find?_eq_none.2 fun entry listed => ?_
    rw [decide_eq_true_eq]
    rintro rfl
    exact absent (List.mem_toFinset.2 (List.mem_map_of_mem listed))
  rw [chance, unfound]
  rfl

/-- A fact is as likely as the store says. -/
theorem likelihood_fact (s : Store Rat) (fact : Fact) :
    s.likelihood (fun world => world fact) = s.chance fact := by
  have impossible : ∀ facts : Finset Fact, fact ∉ facts →
      SafePlan.likelihood s.chance facts (fun world => world fact) = 0 := by
    intro facts absent
    rw [SafePlan.likelihood, Finset.sum_filter]
    refine Finset.sum_eq_zero fun present member => if_neg fun happens => ?_
    exact absent (Finset.mem_powerset.1 member happens)
  by_cases stored : fact ∈ s.facts
  · have sure : Event.given (fun world => world fact) fact = fun _ => True := by
      funext world
      simp [Event.given]
    rw [likelihood, ← Finset.insert_erase stored, likelihood_insert (Finset.notMem_erase _ _),
      impossible _ (Finset.notMem_erase _ _), sure, likelihood_true]
    ring
  · rw [likelihood, impossible _ stored, chance_of_not_mem stored]

/-- `R(a)` and `S(a, b)`, with one half and one third. -/
def pair : Store Rat :=
  (Store.empty.insert "R" [.const "a"] (1 / 2) (by decide +kernel)).insert "S"
    [.const "a", .const "b"] (1 / 3) (by decide +kernel)

end Store

end SafePlan
