/-
# SafePlan.Proofs.Monotonicity — a query is no less probable with more data

Over exact numbers, adding a fact or raising its probability never lowers the
probability of a hierarchical query. A query has no negation, but its evaluation
takes complements, so the induction is on two runs at once, over one domain and
over a larger one (`Rising.valueOfAtoms_le`). A branch that only the larger
domain has is one more factor in the product of complements. It lies between
zero and one, as every number does that evaluation comes to
(`Plan.valueOfAtoms_mem_Icc`), so the product does not grow.
-/
import SafePlan.Proofs.Relevance
import SafePlan.Proofs.Safety
import Mathlib.Algebra.Order.BigOperators.GroupWithZero.Finset
import Mathlib.Algebra.Order.BigOperators.GroupWithZero.List

set_option autoImplicit false

namespace SafePlan

/-! ## Products of probabilities -/

/-- Products and complements of probabilities are probabilities. -/
theorem Arising.mem_Icc {p : Rat} (arises : Arising (· ∈ Set.Icc (0 : Rat) 1) p) :
    p ∈ Set.Icc (0 : Rat) 1 := by
  induction arises with
  | given within => exact within
  | one => exact ⟨zero_le_one, le_refl 1⟩
  | mul _ _ ihp ihq => exact ⟨mul_nonneg ihp.1 ihq.1, mul_le_one₀ ihp.2 ihq.1 ihq.2⟩
  | complement _ ih => exact ⟨sub_nonneg.2 ih.2, sub_le_self 1 ih.1⟩

namespace Arithmetic

variable {ι : Type} {elements elements' : List ι} {f f' : ι → Rat}

theorem all_le_all (nonneg : ∀ i ∈ elements, 0 ≤ f i) (le : ∀ i ∈ elements, f i ≤ f' i) :
    all (elements.map f) ≤ all (elements.map f') := by
  rw [all_eq_prod, all_eq_prod]
  exact List.prod_map_le_prod_map₀ f f' nonneg le

theorem any_map_eq [DecidableEq ι] (distinct : elements.Nodup) :
    any (elements.map f) = 1 - ∏ i ∈ elements.toFinset, (1 - f i) := by
  rw [any_eq_one_sub_prod, List.map_map, List.prod_toFinset _ distinct]
  rfl

/-- Some of more events happens no less probably. -/
theorem any_le_any [DecidableEq ι] (distinct : elements.Nodup) (distinct' : elements'.Nodup)
    (subset : elements ⊆ elements') (probable : ∀ i ∈ elements', f' i ∈ Set.Icc (0 : Rat) 1)
    (le : ∀ i ∈ elements, f i ≤ f' i) : any (elements.map f) ≤ any (elements'.map f') := by
  rw [any_map_eq distinct, any_map_eq distinct']
  refine sub_le_sub_left ?_ 1
  calc ∏ i ∈ elements'.toFinset, (1 - f' i)
      ≤ ∏ i ∈ elements.toFinset, (1 - f' i) := by
        refine Finset.prod_le_prod_of_subset_of_le_one ?_ (fun i listed => ?_) fun i listed _ => ?_
        · exact fun i listed => List.mem_toFinset.2 (subset (List.mem_toFinset.1 listed))
        · exact sub_nonneg.2 (probable i (List.mem_toFinset.1 listed)).2
        · exact sub_le_self 1 (probable i (List.mem_toFinset.1 listed)).1
    _ ≤ ∏ i ∈ elements.toFinset, (1 - f i) := by
        refine Finset.prod_le_prod (fun i listed => ?_) fun i listed => ?_
        · exact sub_nonneg.2 (probable i (subset (List.mem_toFinset.1 listed))).2
        · exact sub_le_sub_left (le i (List.mem_toFinset.1 listed)) 1

end Arithmetic

/-! ## Two runs -/

theorem Plan.valueOfAtoms_mem_Icc {chance : Fact → Rat} {vars domain : List Name}
    {atoms : List Atom} (probable : ∀ fact, chance fact ∈ Set.Icc (0 : Rat) 1)
    (fits : Decomposable vars atoms) :
    valueOfAtoms chance vars domain atoms ∈ Set.Icc (0 : Rat) 1 := by
  have within : Within (atoms.map Atom.relation) atoms := fun a listed => List.mem_map_of_mem listed
  exact (arising_valueOfAtoms (fun fact _ => probable fact) fits within).mem_Icc

/-- The second reading has every constant of the first, and no fact is less
probable in it. -/
structure Rising (chance chance' : Fact → Rat) (domain domain' : List Name) : Prop where
  probable : ∀ fact, chance fact ∈ Set.Icc (0 : Rat) 1
  probable' : ∀ fact, chance' fact ∈ Set.Icc (0 : Rat) 1
  le : ∀ fact, chance fact ≤ chance' fact
  distinct : domain.Nodup
  distinct' : domain'.Nodup
  subset : domain ⊆ domain'

/-- **More data, no less probability.** By induction on the decomposition, which
is the same in both runs. -/
theorem Rising.valueOfAtoms_le {chance chance' : Fact → Rat} {vars domain domain' : List Name}
    {atoms : List Atom} (rising : Rising chance chance' domain domain')
    (fits : Decomposable vars atoms) :
    Plan.valueOfAtoms chance vars domain atoms ≤ Plan.valueOfAtoms chance' vars domain' atoms := by
  induction atoms, fits using Decomposable.induct with
  | ground atoms fits rule =>
    rw [Plan.valueOfAtoms_ground rule, Plan.valueOfAtoms_ground rule]
    exact Arithmetic.all_le_all (fun a _ => (rising.probable a.fact).1) fun a _ => rising.le a.fact
  | split atoms fits rule ih =>
    rw [Plan.valueOfAtoms_split fits rule, Plan.valueOfAtoms_split fits rule]
    refine Arithmetic.all_le_all (fun part listed => ?_) ih
    exact (Plan.valueOfAtoms_mem_Icc rising.probable (fits.of_mem_groups listed)).1
  | eliminate atoms fits x rule ih =>
    rw [Plan.valueOfAtoms_eliminate fits rule, Plan.valueOfAtoms_eliminate fits rule]
    refine Arithmetic.any_le_any rising.distinct rising.distinct' rising.subset (fun c _ => ?_)
      fun c _ => ih c
    exact Plan.valueOfAtoms_mem_Icc rising.probable' (fits.substitute x c)

/-! ## Adding to a store -/

namespace Store

theorem chance_mem_Icc (s : Store Rat) (fact : Fact) : s.chance fact ∈ Set.Icc (0 : Rat) 1 := by
  unfold chance
  split
  · rename_i entry found
    obtain ⟨p, isProbability, kept⟩ := s.probable entry (List.mem_of_find?_eq_some found)
    obtain ⟨nonneg, atMostOne⟩ := Bool.and_eq_true_iff.1 isProbability
    rw [kept]
    exact ⟨of_decide_eq_true nonneg, of_decide_eq_true atMostOne⟩
  · exact ⟨le_refl 0, zero_le_one⟩

variable {P : Type} [Arithmetic P] {s s' : Store P} {relation : Name} {tuple : List Term} {p : P}

theorem exists_insert_of_add (added : s.add relation tuple p = .ok s') :
    ∃ faultless, s' = s.insert relation tuple p faultless := by
  unfold add at added
  split at added <;> rename_i faultless
  · cases added
  · exact ⟨faultless, (Except.ok.inj added).symm⟩

/-- No constant leaves the active domain. -/
theorem domain_subset_insert (faultless : s.fault? relation tuple p = none) :
    s.domain ⊆ (s.insert relation tuple p faultless).domain := by
  intro c listed
  obtain ⟨fact, q, kept, holds⟩ := mem_domain.1 listed
  have found := Table.get?_insert s.table ⟨relation, tuple.map Term.name⟩
    (Arithmetic.canonical p) fact
  refine mem_domain.2 ?_
  by_cases same : fact = ⟨relation, tuple.map Term.name⟩
  · rw [if_pos same] at found
    exact ⟨fact, _, found, holds⟩
  · rw [if_neg same, kept] at found
    exact ⟨fact, _, found, holds⟩

theorem rising_of_add {s s' : Store Rat} {p : Rat} (added : s.add relation tuple p = .ok s')
    (raised : s.lookup relation (tuple.map Term.name) ≤ p) :
    Rising s.chance s'.chance s.domain s'.domain := by
  obtain ⟨faultless, rfl⟩ := exists_insert_of_add added
  refine ⟨s.chance_mem_Icc, chance_mem_Icc _, fun fact => ?_, s.nodup_domain, nodup_domain _,
    domain_subset_insert faultless⟩
  rw [chance_insert s faultless]
  split <;> rename_i same
  · rw [same]
    exact raised
  · exact le_refl _

end Store

namespace Query

/-- **The probability of a query is monotone in the data.** Whatever is added,
at no less than the probability it had, a query that passes the check gets no
less than before; also where the constants of a new fact enlarge the domain. -/
theorem evaluate_le_of_add (q : Query) (hierarchical : q.checkHierarchical = .ok ())
    {s s' : Store Rat} {relation : Name} {tuple : List Term} {p : Rat}
    (added : s.add relation tuple p = .ok s')
    (raised : s.lookup relation (tuple.map Term.name) ≤ p) (options options' : Options) :
    ∃ evaluation evaluation', q.evaluate s options = .ok evaluation ∧
      q.evaluate s' options' = .ok evaluation' ∧
      evaluation.probability ≤ evaluation'.probability := by
  obtain ⟨evaluation, drawn, value⟩ := q.evaluate_eq_valueOfAtoms hierarchical s options
  obtain ⟨evaluation', drawn', value'⟩ := q.evaluate_eq_valueOfAtoms hierarchical s' options'
  have fits := q.decomposable (q.checkHierarchical_eq_ok_iff.1 hierarchical)
  refine ⟨evaluation, evaluation', drawn, drawn', ?_⟩
  rw [value, value']
  exact (Store.rising_of_add added raised).valueOfAtoms_le fits

/-- A second way to reach something, over a constant that is new. -/
theorem evaluate_le_of_add_reachable :
    reachable.checkHierarchical = .ok () ∧
      ∃ s', Store.pair.add "S" [.const "a", .const "c"] (1 / 2) = .ok s' ∧
        Store.pair.lookup "S" ["a", "c"] ≤ 1 / 2 ∧ s'.domain = ["a", "b", "c"] ∧
        ∃ evaluation evaluation', reachable.evaluate Store.pair {} = .ok evaluation ∧
          reachable.evaluate s' {} = .ok evaluation' ∧
          evaluation.probability ≤ evaluation'.probability := by
  have hierarchical : reachable.checkHierarchical = .ok () := by decide
  have raised : Store.pair.lookup "S" ["a", "c"] ≤ 1 / 2 := by decide +kernel
  have grown : (Store.pair.add "S" [.const "a", .const "c"] (1 / 2)).toOption.map Store.domain =
      some ["a", "b", "c"] := by decide +kernel
  cases added : Store.pair.add "S" [.const "a", .const "c"] (1 / 2) with
  | error fault =>
    rw [added] at grown
    cases grown
  | ok s' =>
    rw [added] at grown
    exact ⟨hierarchical, s', rfl, raised, Option.some.inj grown,
      evaluate_le_of_add reachable hierarchical added raised {} {}⟩

end Query

end SafePlan
