/-
# SafePlan.Proofs.Relevance — a query's probability depends on its relations only

Facts of other relations, and facts that are certainly absent, may bring
constants into the active domain, and elimination branches over all of it. Such
a constant stands in every atom of its branch, and some fact would have to hold
it; so the branch has probability zero (`valueOfAtoms_eq_zero`), and leaving it
out leaves the product of complements as it is (`any_filter`).

The numbers are the very same ones. Only laws of zero and one are used, and only
for numbers that the evaluation may come to (`Arising`): rounding keeps them.
-/
import SafePlan.Proofs.Agreement
import SafePlan.Proofs.AtomValues
import SafePlan.Proofs.Likelihood

set_option autoImplicit false

namespace SafePlan

variable {P : Type} [Arithmetic P]

/-! ## Numbers that arise -/

/-- The numbers that products and complements make of the given ones. -/
inductive Arising (given : P → Prop) : P → Prop
  | given {p : P} : given p → Arising given p
  | one : Arising given Arithmetic.one
  | mul {p q : P} : Arising given p → Arising given q → Arising given (Arithmetic.mul p q)
  | complement {p : P} : Arising given p → Arising given (Arithmetic.complement p)

/-- Some numbers keep the laws of zero and one. -/
structure ZeroOneLaws (numbers : P → Prop) : Prop where
  mul_one : ∀ p, numbers p → Arithmetic.mul p Arithmetic.one = p
  zero_mul : ∀ p, numbers p → Arithmetic.mul Arithmetic.zero p = Arithmetic.zero
  mul_zero : ∀ p, numbers p → Arithmetic.mul p Arithmetic.zero = Arithmetic.zero
  complement_zero : Arithmetic.complement Arithmetic.zero = (Arithmetic.one : P)
  complement_one : Arithmetic.complement Arithmetic.one = (Arithmetic.zero : P)

namespace Arithmetic

variable {given : P → Prop} {ps : List P}

theorem arising_foldl {p : P} (first : Arising given p) (others : ∀ q ∈ ps, Arising given q) :
    Arising given (ps.foldl mul p) := by
  induction ps generalizing p with
  | nil => exact first
  | cons q rest ih =>
    obtain ⟨here, later⟩ := List.forall_mem_cons.1 others
    exact ih (.mul first here) later

theorem arising_all (arise : ∀ p ∈ ps, Arising given p) : Arising given (all ps) :=
  arising_foldl .one arise

theorem arising_any (arise : ∀ p ∈ ps, Arising given p) : Arising given (any ps) :=
  .complement (arising_all (List.forall_mem_map.2 fun p listed => .complement (arise p listed)))

/-- Zero absorbs what is multiplied with it, on either side. -/
theorem foldl_mul_eq_zero (laws : ZeroOneLaws (Arising given)) {p : P} (first : Arising given p)
    (others : ∀ q ∈ ps, Arising given q) (absorbs : p = zero ∨ zero ∈ ps) :
    ps.foldl mul p = zero := by
  induction ps generalizing p with
  | nil => simpa using absorbs
  | cons q rest ih =>
    obtain ⟨here, later⟩ := List.forall_mem_cons.1 others
    refine ih (.mul first here) later ?_
    rcases absorbs with rfl | listed
    · exact .inl (laws.zero_mul q here)
    · rcases List.mem_cons.1 listed with rfl | there
      · exact .inl (laws.mul_zero p first)
      · exact .inr there

theorem all_eq_zero (laws : ZeroOneLaws (Arising given)) (arise : ∀ p ∈ ps, Arising given p)
    (listed : zero ∈ ps) : all ps = zero :=
  foldl_mul_eq_zero laws .one arise (.inr listed)

section Filter

variable {ι : Type} {elements : List ι} {keep : ι → Bool} {f : ι → P}

theorem foldl_mul_filter (laws : ZeroOneLaws (Arising given)) {p : P} (first : Arising given p)
    (arise : ∀ i ∈ elements, Arising given (f i))
    (dropped : ∀ i ∈ elements, keep i = false → f i = one) :
    (elements.map f).foldl mul p = ((elements.filter keep).map f).foldl mul p := by
  induction elements generalizing p with
  | nil => rfl
  | cons i rest ih =>
    obtain ⟨here, later⟩ := List.forall_mem_cons.1 arise
    obtain ⟨droppedHere, droppedLater⟩ := List.forall_mem_cons.1 dropped
    cases kept : keep i with
    | true =>
      rw [List.filter_cons_of_pos kept]
      exact ih (.mul first here) later droppedLater
    | false =>
      rw [List.filter_cons_of_neg (by simp [kept]), List.map_cons, List.foldl_cons,
        droppedHere kept, laws.mul_one p first]
      exact ih first later droppedLater

/-- Events that cannot happen may be left out of a disjunction. -/
theorem any_filter (laws : ZeroOneLaws (Arising given))
    (arise : ∀ i ∈ elements, Arising given (f i))
    (dropped : ∀ i ∈ elements, keep i = false → f i = zero) :
    any (elements.map f) = any ((elements.filter keep).map f) := by
  have impossible : ∀ i ∈ elements, keep i = false → complement (f i) = one := by
    intro i listed out
    rw [dropped i listed out, laws.complement_zero]
  have same := foldl_mul_filter laws .one (fun i listed => .complement (arise i listed)) impossible
  show complement (all ((elements.map f).map complement))
    = complement (all (((elements.filter keep).map f).map complement))
  rw [List.map_map, List.map_map]
  exact congrArg complement same

theorem any_eq_zero (laws : ZeroOneLaws (Arising given))
    (arise : ∀ i ∈ elements, Arising given (f i)) (impossible : ∀ i ∈ elements, f i = zero) :
    any (elements.map f) = zero := by
  have none : any (elements.map f) = any ((elements.filter fun _ => false).map f) :=
    any_filter laws arise fun i listed _ => impossible i listed
  rw [none, List.filter_false]
  exact laws.complement_one

end Filter

end Arithmetic

/-! ## Branches that cannot happen -/

/-- The atoms are of these relations. -/
def Within (relations : List Name) (atoms : List Atom) : Prop :=
  ∀ a ∈ atoms, a.relation ∈ relations

section Within

variable {relations : List Name} {atoms part : List Atom}

theorem Within.of_mem_groups {linking : Name → Bool} (within : Within relations atoms)
    (listed : part ∈ groups linking atoms) : Within relations part :=
  fun a here => within a ((sublist_of_mem_groups listed).subset here)

theorem Within.substitute (within : Within relations atoms) (x c : Name) :
    Within relations (Atom.substituteAll x c atoms) :=
  List.forall_mem_map.2 within

end Within

namespace Plan

section Branches

variable {given : P → Prop} {relations vars domain : List Name} {chance : Fact → P}
  {atoms : List Atom} {c : Name}

theorem arising_valueOfAtoms (reads : ∀ fact : Fact, fact.relation ∈ relations → given (chance fact))
    (fits : Decomposable vars atoms) (within : Within relations atoms) :
    Arising given (valueOfAtoms chance vars domain atoms) := by
  induction atoms, fits using Decomposable.induct with
  | ground atoms fits rule =>
    rw [valueOfAtoms_ground rule]
    refine Arithmetic.arising_all (List.forall_mem_map.2 fun a listed => ?_)
    exact .given (reads a.fact (within a listed))
  | split atoms fits rule ih =>
    rw [valueOfAtoms_split fits rule]
    refine Arithmetic.arising_all (List.forall_mem_map.2 fun part listed => ?_)
    exact ih part listed (within.of_mem_groups listed)
  | eliminate atoms fits x rule ih =>
    rw [valueOfAtoms_eliminate fits rule]
    refine Arithmetic.arising_any (List.forall_mem_map.2 fun c _ => ?_)
    exact ih c (within.substitute x c)

/-- **Absent constants.** Atoms one of which holds a constant that no fact of the
relations can hold have probability zero. -/
theorem valueOfAtoms_eq_zero (laws : ZeroOneLaws (Arising given))
    (reads : ∀ fact : Fact, fact.relation ∈ relations → given (chance fact))
    (absent : ∀ fact : Fact, fact.relation ∈ relations → c ∈ fact.tuple →
      chance fact = Arithmetic.zero)
    (fits : Decomposable vars atoms) (within : Within relations atoms)
    (held : ∃ a ∈ atoms, Term.const c ∈ a.terms) :
    valueOfAtoms chance vars domain atoms = Arithmetic.zero := by
  obtain ⟨a, listed, holds⟩ := held
  induction atoms, fits using Decomposable.induct generalizing a with
  | ground atoms fits rule =>
    rw [valueOfAtoms_ground rule]
    have arise : ∀ p ∈ atoms.map fun a => chance a.fact, Arising given p :=
      List.forall_mem_map.2 fun b here => .given (reads b.fact (within b here))
    refine Arithmetic.all_eq_zero laws arise (List.mem_map.2 ⟨a, listed, ?_⟩)
    exact absent a.fact (within a listed) (List.mem_map_of_mem holds)
  | split atoms fits rule ih =>
    obtain ⟨part, isPart, inPart⟩ :=
      List.mem_flatten.1 ((flatten_groups_perm everyVar atoms).mem_iff.2 listed)
    have zeroPart := ih part isPart (within.of_mem_groups isPart) a inPart holds
    rw [valueOfAtoms_split fits rule]
    refine Arithmetic.all_eq_zero laws (List.forall_mem_map.2 fun other isOther => ?_)
      (List.mem_map.2 ⟨part, isPart, zeroPart⟩)
    exact arising_valueOfAtoms reads (fits.of_mem_groups isOther) (within.of_mem_groups isOther)
  | eliminate atoms fits x rule ih =>
    rw [valueOfAtoms_eliminate fits rule]
    refine Arithmetic.any_eq_zero laws (fun d _ => ?_) fun d _ => ?_
    · exact arising_valueOfAtoms reads (fits.substitute x d) (within.substitute x d)
    · have kept : Term.const c ∈ (a.substitute x d).terms :=
        List.mem_map.2 ⟨.const c, holds, rfl⟩
      exact ih d (within.substitute x d) _ (List.mem_map_of_mem listed) kept

end Branches

end Plan

/-! ## Two readings of the same relations -/

/-- Both give the facts of some relations the same probabilities, and in both a
fact with a constant outside the domain is certainly absent. -/
structure SameReading (relations : List Name) (chance chance' : Fact → P)
    (domain domain' : NameSet) : Prop where
  agree : ∀ fact : Fact, fact.relation ∈ relations → chance fact = chance' fact
  covered : ∀ fact : Fact, ∀ c ∈ fact.tuple, c ∉ domain → chance fact = Arithmetic.zero
  covered' : ∀ fact : Fact, ∀ c ∈ fact.tuple, c ∉ domain' → chance' fact = Arithmetic.zero
  increasing : NameSet.Increasing domain
  increasing' : NameSet.Increasing domain'

theorem NameSet.filter_mem_comm {left right : NameSet} (increasing : Increasing left)
    (increasing' : Increasing right) :
    left.filter (· ∈ right) = right.filter (· ∈ left) := by
  refine eq_of_mem_iff (increasing.filter _) (increasing'.filter _) fun name => ?_
  simp only [List.mem_filter, decide_eq_true_eq, and_comm]

section Readings

variable {given : P → Prop} {relations vars : List Name} {domain domain' : NameSet}
  {chance chance' : Fact → P} {atoms : List Atom}

theorem SameReading.symm (same : SameReading relations chance chance' domain domain') :
    SameReading relations chance' chance domain' domain where
  agree fact read := (same.agree fact read).symm
  covered := same.covered'
  covered' := same.covered
  increasing := same.increasing'
  increasing' := same.increasing

/-- The branches over a domain are those at the constants that the other reading
has too: at the others the probability is zero. -/
theorem SameReading.any_branches (same : SameReading relations chance chance' domain domain')
    (laws : ZeroOneLaws (Arising given))
    (reads : ∀ fact : Fact, fact.relation ∈ relations → given (chance fact)) {x : Name}
    (rule : Decomposition.of vars atoms = .ok (.eliminate x)) (fits : Decomposable vars atoms)
    (within : Within relations atoms) :
    Arithmetic.any (domain.map fun c =>
        Plan.valueOfAtoms chance vars domain (Atom.substituteAll x c atoms))
      = Arithmetic.any ((domain.filter (· ∈ domain')).map fun c =>
        Plan.valueOfAtoms chance vars domain (Atom.substituteAll x c atoms)) := by
  obtain ⟨nonempty, mentions⟩ := Decomposition.mentions_of_eliminate rule
  obtain ⟨a, listed⟩ := List.exists_mem_of_ne_nil _ nonempty
  refine Arithmetic.any_filter laws (fun c _ => ?_) fun c _ outside => ?_
  · exact Plan.arising_valueOfAtoms reads (fits.substitute x c) (within.substitute x c)
  · have absent : ∀ fact : Fact, fact.relation ∈ relations → c ∈ fact.tuple →
        chance fact = Arithmetic.zero := by
      intro fact read holds
      rw [same.agree fact read]
      exact same.covered' fact c holds (of_decide_eq_false outside)
    have held : Term.const c ∈ (a.substitute x c).terms :=
      List.mem_map.2 ⟨.var x, Query.mem_vars_iff.1 (mentions a listed), by simp [Term.substitute]⟩
    exact Plan.valueOfAtoms_eq_zero laws reads absent (fits.substitute x c) (within.substitute x c)
      ⟨_, List.mem_map_of_mem listed, held⟩

/-- **Readings that agree give the same number.** -/
theorem SameReading.valueOfAtoms_eq (same : SameReading relations chance chance' domain domain')
    (laws : ZeroOneLaws (Arising given))
    (reads : ∀ fact : Fact, fact.relation ∈ relations → given (chance fact))
    (fits : Decomposable vars atoms) (within : Within relations atoms) :
    Plan.valueOfAtoms chance vars domain atoms = Plan.valueOfAtoms chance' vars domain' atoms := by
  have reads' : ∀ fact : Fact, fact.relation ∈ relations → given (chance' fact) :=
    fun fact read => same.agree fact read ▸ reads fact read
  induction atoms, fits using Decomposable.induct with
  | ground atoms fits rule =>
    rw [Plan.valueOfAtoms_ground rule, Plan.valueOfAtoms_ground rule]
    exact congrArg Arithmetic.all
      (List.map_congr_left fun a listed => same.agree a.fact (within a listed))
  | split atoms fits rule ih =>
    rw [Plan.valueOfAtoms_split fits rule, Plan.valueOfAtoms_split fits rule]
    exact congrArg Arithmetic.all
      (List.map_congr_left fun part listed => ih part listed (within.of_mem_groups listed))
  | eliminate atoms fits x rule ih =>
    rw [Plan.valueOfAtoms_eliminate fits rule, Plan.valueOfAtoms_eliminate fits rule,
      same.any_branches laws reads rule fits within,
      same.symm.any_branches laws reads' rule fits within,
      NameSet.filter_mem_comm same.increasing' same.increasing]
    exact congrArg Arithmetic.any
      (List.map_congr_left fun c _ => ih c (within.substitute x c))

end Readings

/-! ## Stores -/

/-- A fact with a constant outside the active domain is certainly absent. -/
theorem Store.chance_of_not_mem_domain {s : Store P} {fact : Fact} {c : Name}
    (holds : c ∈ fact.tuple) (outside : c ∉ s.domain) : s.chance fact = Arithmetic.zero := by
  unfold chance
  split
  · rename_i entry found
    obtain rfl : entry.1 = fact := by simpa using List.find?_some found
    refine absurd (NameSet.mem_ofList.2 (List.mem_flatMap.2 ⟨entry, ?_, holds⟩)) outside
    exact List.mem_of_find?_eq_some found
  · rfl

/-- The probabilities that a store gives to tuples of some relations. -/
def Store.Gives (s : Store P) (relations : List Name) (p : P) : Prop :=
  ∃ relation ∈ relations, ∃ tuple, s.lookup relation tuple = p

/-- `Store.pair` with a fact of another relation and one that is certainly
absent. Both bring a constant of their own, and not at the same end of the order. -/
def Store.crowded : Store Rat :=
  (Store.pair.insert "R" [.const "0"] 0 (by decide +kernel)).insert "T" [.const "z"] (1 / 4)
    (by decide +kernel)

namespace Query

/-- **A query gets the very same number in any two stores that agree on the
relations it names**, whatever else they hold and however their active domains
differ. -/
theorem evaluate_eq_of_lookup_eq (q : Query) (hierarchical : q.checkHierarchical = .ok ())
    (s s' : Store P)
    (agree : ∀ relation ∈ q.relations, ∀ tuple, s.lookup relation tuple = s'.lookup relation tuple)
    (laws : ZeroOneLaws (Arising (s.Gives q.relations))) (options options' : Options) :
    ∃ evaluation evaluation', q.evaluate s options = .ok evaluation ∧
      q.evaluate s' options' = .ok evaluation' ∧
      evaluation.probability = evaluation'.probability := by
  obtain ⟨evaluation, drawn, value⟩ := q.evaluate_eq_valueOfAtoms hierarchical s options
  obtain ⟨evaluation', drawn', value'⟩ := q.evaluate_eq_valueOfAtoms hierarchical s' options'
  have same : SameReading q.relations s.chance s'.chance s.domain s'.domain := {
    agree := fun fact read => agree fact.relation read fact.tuple
    covered := fun _ _ => Store.chance_of_not_mem_domain
    covered' := fun _ _ => Store.chance_of_not_mem_domain
    increasing := NameSet.increasing_ofList _
    increasing' := NameSet.increasing_ofList _ }
  have fits := q.decomposable (q.checkHierarchical_eq_ok_iff.1 hierarchical)
  have within : Within q.relations q.atoms := fun a listed => List.mem_map_of_mem listed
  refine ⟨evaluation, evaluation', drawn, drawn', ?_⟩
  rw [value, value']
  refine same.valueOfAtoms_eq laws (fun fact read => ?_) fits within
  exact ⟨fact.relation, read, fact.tuple, rfl⟩

/-- Four branches in the one store and two in the other. -/
theorem evaluate_eq_of_lookup_eq_crowded :
    reachable.checkHierarchical = .ok () ∧
      (∀ relation ∈ reachable.relations, ∀ tuple,
        Store.pair.lookup relation tuple = Store.crowded.lookup relation tuple) ∧
      ZeroOneLaws (Arising (Store.pair.Gives reachable.relations)) ∧
      (Store.pair.domain, Store.crowded.domain) = (["a", "b"], ["0", "a", "b", "z"]) ∧
      ∃ evaluation evaluation', reachable.evaluate Store.pair {} = .ok evaluation ∧
        reachable.evaluate Store.crowded {} = .ok evaluation' ∧
        evaluation.probability = evaluation'.probability := by
  have hierarchical : reachable.checkHierarchical = .ok () := by decide
  have agree : ∀ relation ∈ reachable.relations, ∀ tuple,
      Store.pair.lookup relation tuple = Store.crowded.lookup relation tuple := by
    intro relation named tuple
    have notT : relation ≠ "T" := by
      rintro rfl
      exact absurd named (by decide)
    show Store.pair.chance ⟨relation, tuple⟩ = Store.crowded.chance ⟨relation, tuple⟩
    rw [Store.crowded, Store.chance_insert, Store.chance_insert, if_neg (by simp [notT])]
    split <;> rename_i added
    · rw [added]
      decide +kernel
    · rfl
  have laws : ZeroOneLaws (Arising (Store.pair.Gives reachable.relations)) := {
    mul_one := fun p _ => mul_one p
    zero_mul := fun p _ => zero_mul p
    mul_zero := fun p _ => mul_zero p
    complement_zero := sub_zero 1
    complement_one := sub_self 1 }
  exact ⟨hierarchical, agree, laws, by decide +kernel,
    evaluate_eq_of_lookup_eq reachable hierarchical Store.pair Store.crowded agree laws {} {}⟩

end Query

end SafePlan
