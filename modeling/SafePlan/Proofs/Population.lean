/-
# SafePlan.Proofs.Population — the order in which a store is filled

The numbers of constants and the order of tables tell in which order facts arrived.
Evaluation over a layout (`evaluateIn`) reads none of it: it goes over the active domain,
which is kept sorted by name, and asks for facts by name. So two sequences of attempts
that all succeed and that wrote the same last are the same to it, down to the trace; and
it is the evaluation over the facts (`evaluateIn_eq_evaluate`).

What a sequence wrote last for a fact is what the ledger of its attempts holds
(`run_of_populate`), and a layout is read as its ledger (`reads_of_populate`). Whether a
sequence succeeds does not depend on its order (`exists_populate_iff`), so reordering
attempts at different facts or leaving out what is overwritten gives such a sequence again.
-/
import SafePlan.Evaluation
import SafePlan.Proofs.Agreement
import SafePlan.Proofs.Refusal

set_option autoImplicit false

namespace SafePlan

variable {P : Type} [Arithmetic P]

/-! ## Evaluation over a layout -/

/-- The probability of a fact, read through the numbers of its constants. -/
def InternedStore.chance (s : InternedStore P) (fact : Fact) : P :=
  s.lookup fact.relation fact.tuple

def Plan.evaluateIn {S : Type} (render : S → String) (s : InternedStore P) (options : Options)
    (plan : Plan S) : Evaluation P where
  probability := plan.value s.chance
  trace := if options.trace then plan.steps s.chance render 0 else []

def Query.evaluateIn (q : Query) (s : InternedStore P) (options : Options) :
    Except Unsupported (Evaluation P) := do
  let plan ← q.plan s.domain
  return plan.evaluateIn q.displayPart s options

def Formula.evaluateIn (f : Formula) (s : InternedStore P) (options : Options) :
    Except Unsupported (Evaluation P) := do
  let plan ← f.plan s.domain
  return plan.evaluateIn display s options

namespace InternedStore

variable {attempts first second : List (Attempt P)} {s s' : InternedStore P}

/-! ## What is written last -/

/-- The store after attempts that all succeed. -/
def populate (attempts : List (Attempt P)) : Except (FactError P) (InternedStore P) :=
  attempts.foldlM (fun s a => s.add a.relation a.tuple a.probability) empty

/-- The probability that was written last for a fact, as it is kept. -/
def lastWritten (attempts : List (Attempt P)) (fact : Fact) : Option P :=
  (attempts.reverse.find? (·.fact = fact)).map (Arithmetic.canonical ·.probability)

/-- The constants of some attempts. -/
def constantsOf (attempts : List (Attempt P)) : Finset Name :=
  (attempts.flatMap (·.fact.tuple)).toFinset

theorem lastWritten_append (first second : List (Attempt P)) (fact : Fact) :
    lastWritten (first ++ second) fact = (lastWritten second fact).or (lastWritten first fact) := by
  rw [lastWritten, List.reverse_append, List.find?_append, Option.map_or]
  rfl

theorem lastWritten_singleton (a : Attempt P) (fact : Fact) :
    lastWritten [a] fact =
      if fact = a.fact then some (Arithmetic.canonical a.probability) else none := by
  by_cases same : fact = a.fact
  · simp [lastWritten, same]
  · simp [lastWritten, same, Ne.symm same]

theorem exists_of_lastWritten {fact : Fact} {p : P} (written : lastWritten attempts fact = some p) :
    ∃ a ∈ attempts, a.fact = fact ∧ Arithmetic.canonical a.probability = p := by
  obtain ⟨a, last, rfl⟩ := Option.map_eq_some_iff.1 written
  refine ⟨a, ?_, ?_, rfl⟩
  · simpa using List.mem_of_find?_eq_some last
  · simpa using List.find?_some last

theorem exists_lastWritten {a : Attempt P} (listed : a ∈ attempts) :
    ∃ p, lastWritten attempts a.fact = some p := by
  cases written : lastWritten attempts a.fact with
  | some p => exact ⟨p, rfl⟩
  | none =>
    have other := List.find?_eq_none.1 (Option.map_eq_none_iff.1 written) a (by simpa using listed)
    simp at other

theorem lastWritten_eq_some_iff (distinct : (attempts.map Attempt.fact).Nodup) {fact : Fact} {p : P} :
    lastWritten attempts fact = some p ↔
      ∃ a ∈ attempts, a.fact = fact ∧ Arithmetic.canonical a.probability = p := by
  refine ⟨exists_of_lastWritten, ?_⟩
  rintro ⟨a, listed, rfl, rfl⟩
  obtain ⟨p, written⟩ := exists_lastWritten listed
  obtain ⟨b, listed', same, rfl⟩ := exists_of_lastWritten written
  rw [written, List.inj_on_of_nodup_map distinct listed' listed same]

/-- Attempts at different facts may come in any order. -/
theorem lastWritten_perm (distinct : (first.map Attempt.fact).Nodup) (perm : first.Perm second)
    (fact : Fact) : lastWritten first fact = lastWritten second fact := by
  have distinct' : (second.map Attempt.fact).Nodup := (perm.map Attempt.fact).nodup distinct
  refine Option.ext fun p => ?_
  rw [lastWritten_eq_some_iff distinct, lastWritten_eq_some_iff distinct']
  simp only [perm.mem_iff]

/-- An attempt that is overwritten may be left out. -/
theorem lastWritten_overwritten (before : List (Attempt P)) {a : Attempt P} {after : List (Attempt P)}
    (again : ∃ b ∈ after, b.fact = a.fact) (fact : Fact) :
    lastWritten (before ++ a :: after) fact = lastWritten (before ++ after) fact := by
  rw [lastWritten_append, lastWritten_append, ← List.singleton_append, lastWritten_append,
    lastWritten_singleton]
  split <;> rename_i same
  · obtain ⟨b, listed, sameFact⟩ := again
    obtain ⟨p, written⟩ := exists_lastWritten listed
    rw [same, ← sameFact, written]
    rfl
  · rw [Option.or_none]

/-! ## What is read after attempts that succeed -/

theorem populate_concat (attempts : List (Attempt P)) (a : Attempt P) :
    populate (attempts ++ [a]) =
      populate attempts >>= fun s => s.add a.relation a.tuple a.probability := by
  rw [populate, List.foldlM_append]
  simp only [List.foldlM_cons, List.foldlM_nil, bind_pure]
  rfl

theorem add_eq_ok_iff {relation : Name} {tuple : List Term} {p : P} :
    s.add relation tuple p = .ok s' ↔ Store.complaint? (s.arity? relation) relation tuple p = none ∧
      s.insert relation (tuple.map Term.name) (Arithmetic.canonical p) = s' := by
  rw [add]
  cases Store.complaint? (s.arity? relation) relation tuple p <;> simp

/-- Attempts that all succeed leave what attempts leave, and their ledger holds what they
wrote last. -/
theorem run_of_populate (populated : populate attempts = .ok s) :
    (run attempts).1 = s ∧ ∀ fact, (run attempts).2.lookup fact = lastWritten attempts fact := by
  induction attempts using List.reverseRecOn generalizing s with
  | nil =>
    cases populated
    exact ⟨rfl, fun fact => Finmap.lookup_empty fact⟩
  | append_singleton attempts a ih =>
    rw [populate_concat] at populated
    obtain ⟨before, populated, added⟩ := bind_eq_ok_iff.1 populated
    obtain ⟨rfl, last⟩ := ih populated
    obtain ⟨accepted, -⟩ := add_eq_ok_iff.1 added
    rw [run_concat]
    refine ⟨by rw [attempt, added], fun fact => ?_⟩
    rw [lookup_attempt, accepted, lastWritten_append, lastWritten_singleton, last]
    split <;> rename_i same
    · rw [if_pos same.2]
      rfl
    · rw [if_neg fun fact => same ⟨rfl, fact⟩]
      rfl

theorem card_constants_run_le (populated : populate attempts = .ok s) :
    (run attempts).2.constants.card ≤ (constantsOf attempts).card := by
  obtain ⟨-, last⟩ := run_of_populate populated
  refine Finset.card_le_card fun c listed => ?_
  obtain ⟨fact, stored, occurs⟩ := Finset.mem_biUnion.1 listed
  obtain ⟨p, lookup⟩ := Finmap.mem_iff.1 (Finmap.mem_keys.1 stored)
  obtain ⟨a, attempted, rfl, -⟩ := exists_of_lastWritten ((last fact).symm.trans lookup)
  exact List.mem_toFinset.2 (List.mem_flatMap.2 ⟨a, attempted, List.mem_toFinset.1 occurs⟩)

theorem reads_of_populate (populated : populate attempts = .ok s)
    (few : (run attempts).2.constants.card ≤ UInt32.size) :
    (∀ fact, s.chance fact = (lastWritten attempts fact).getD Arithmetic.zero) ∧
      NameSet.Increasing s.domain ∧
      ∀ c, c ∈ s.domain ↔ ∃ fact p, lastWritten attempts fact = some p ∧ c ∈ fact.tuple := by
  obtain ⟨rfl, last⟩ := run_of_populate populated
  have tracks := tracks_run attempts
  have represents := represents_run attempts (tracks.length_names_le.trans few)
  refine ⟨fun fact => ?_, tracks.sorted, fun c => ?_⟩
  · rw [chance, represents.lookup_eq, last]
  · simp only [tracks.domain, Finmap.mem_iff, last, exists_and_right]

/-- Evaluation over the layout is evaluation over the facts. -/
theorem evaluateIn_eq_evaluate (populated : populate attempts = .ok s)
    (few : (constantsOf attempts).card ≤ UInt32.size) (q : Query) (f : Formula) (options : Options) :
    q.evaluateIn s options = q.evaluate (Store.run attempts) options ∧
      f.evaluateIn s options = f.evaluate (Store.run attempts) options := by
  have few' := (card_constants_run_le populated).trans few
  obtain ⟨rfl, -⟩ := run_of_populate populated
  have chance : (run attempts).1.chance = (Store.run attempts).chance :=
    funext fun fact => (run_chance_eq attempts few' fact).symm
  have domain := run_domain_eq attempts few'
  constructor
  · simp only [Query.evaluateIn, Query.evaluate, Plan.evaluateIn, Plan.evaluate, chance, domain]
  · simp only [Formula.evaluateIn, Formula.evaluate, Plan.evaluateIn, Plan.evaluate, chance, domain]

/-! ## Attempts that all succeed -/

/-- Nothing is wrong with the attempt on its own. -/
structure Acceptable (a : Attempt P) : Prop where
  named : a.relation ≠ ""
  probable : Arithmetic.isProbability a.probability = true
  ground : ∀ x, Term.var x ∉ a.tuple

/-- Two attempts of one relation agree on its arity. -/
def SameArity (a b : Attempt P) : Prop := a.relation = b.relation → a.tuple.length = b.tuple.length

omit [Arithmetic P] in
theorem SameArity.symm {a b : Attempt P} (fits : SameArity a b) : SameArity b a :=
  fun same => (fits same.symm).symm

instance : Std.Symm (SameArity (P := P)) := ⟨fun _ _ => SameArity.symm⟩

/-- The first attempt at a relation fixes its arity. -/
theorem arity?_of_populate (populated : populate attempts = .ok s) (relation : Name) :
    s.arity? relation = (attempts.find? (·.relation = relation)).map (·.tuple.length) := by
  induction attempts using List.reverseRecOn generalizing s with
  | nil =>
    cases populated
    rfl
  | append_singleton attempts a ih =>
    rw [populate_concat] at populated
    obtain ⟨before, earlier, added⟩ := bind_eq_ok_iff.1 populated
    obtain ⟨-, rfl⟩ := add_eq_ok_iff.1 added
    rw [arity?_insert, List.find?_append, Option.map_or, ← ih earlier, List.length_map]
    by_cases same : relation = a.relation
    · subst same
      cases before.arity? a.relation <;> simp
    · simp [same, Ne.symm same]

/-- One more attempt succeeds if nothing is wrong with it and it fits those before. -/
theorem complaint?_eq_none_iff_acceptable (populated : populate attempts = .ok s)
    (fit : attempts.Pairwise SameArity) (a : Attempt P) :
    Store.complaint? (s.arity? a.relation) a.relation a.tuple a.probability = none ↔
      Acceptable a ∧ ∀ b ∈ attempts, SameArity b a := by
  have fixed : (∀ arity, s.arity? a.relation = some arity → arity = a.tuple.length) ↔
      ∀ b ∈ attempts, SameArity b a := by
    rw [arity?_of_populate populated]
    constructor
    · intro fits b listed same
      cases found : attempts.find? (·.relation = a.relation) with
      | none => simpa [same] using List.find?_eq_none.1 found b listed
      | some first =>
        have here : first.relation = a.relation := by simpa using List.find?_some found
        have between : SameArity b first :=
          fit.forall_of_forall (fun _ _ _ => rfl) listed (List.mem_of_find?_eq_some found)
        rw [between (same.trans here.symm)]
        exact fits _ (by rw [found, Option.map_some])
    · intro fits arity found
      obtain ⟨first, first?, rfl⟩ := Option.map_eq_some_iff.1 found
      exact fits first (List.mem_of_find?_eq_some first?) (by simpa using List.find?_some first?)
  rw [Store.complaint?_eq_none_iff, Store.firstVar?_eq_none_iff, fixed]
  constructor
  · rintro ⟨named, probable, ground, fits⟩
    exact ⟨⟨named, probable, ground⟩, fits⟩
  · rintro ⟨⟨named, probable, ground⟩, fits⟩
    exact ⟨named, probable, ground, fits⟩

/-- **Whether attempts all succeed is a matter of each and of any two of them.** -/
theorem exists_populate_iff :
    (∃ s, populate attempts = .ok s) ↔
      (∀ a ∈ attempts, Acceptable a) ∧ attempts.Pairwise SameArity := by
  induction attempts using List.reverseRecOn with
  | nil => exact ⟨fun _ => by simp, fun _ => ⟨empty, rfl⟩⟩
  | append_singleton attempts a ih =>
    simp only [populate_concat, bind_eq_ok_iff, add_eq_ok_iff, List.pairwise_append,
      List.forall_mem_append, List.forall_mem_singleton, List.pairwise_singleton, true_and]
    constructor
    · rintro ⟨s, before, earlier, accepted, -⟩
      obtain ⟨sound, fit⟩ := ih.1 ⟨before, earlier⟩
      obtain ⟨here, fits⟩ := (complaint?_eq_none_iff_acceptable earlier fit a).1 accepted
      exact ⟨⟨sound, here⟩, fit, fits⟩
    · rintro ⟨⟨sound, here⟩, fit, fits⟩
      obtain ⟨before, earlier⟩ := ih.2 ⟨sound, fit⟩
      exact ⟨_, before, earlier, (complaint?_eq_none_iff_acceptable earlier fit a).2 ⟨here, fits⟩, rfl⟩

theorem populate_perm (perm : first.Perm second) :
    (∃ s, populate first = .ok s) ↔ ∃ s, populate second = .ok s := by
  rw [exists_populate_iff, exists_populate_iff]
  rw [perm.pairwise_iff SameArity.symm]
  simp only [perm.mem_iff]

theorem populate_sublist (sublist : second.Sublist first) (populated : ∃ s, populate first = .ok s) :
    ∃ s, populate second = .ok s := by
  obtain ⟨sound, fit⟩ := exists_populate_iff.1 populated
  exact exists_populate_iff.2 ⟨fun a listed => sound a (sublist.subset listed), fit.sublist sublist⟩

/-! ## The order does not matter -/

/-- **The order in which a store is filled makes no difference to evaluation.** Two sequences
of attempts that all succeed, over at most `2 ^ 32` constants, and that wrote the same last
for every fact give the same probabilities, the same traces and the same errors. -/
theorem evaluateIn_eq_of_lastWritten (populated : populate first = .ok s)
    (populated' : populate second = .ok s') (few : (constantsOf first).card ≤ UInt32.size)
    (same : ∀ fact, lastWritten first fact = lastWritten second fact) :
    (∀ (q : Query) options, q.evaluateIn s options = q.evaluateIn s' options) ∧
    ∀ (f : Formula) options, f.evaluateIn s options = f.evaluateIn s' options := by
  have fewFirst := (card_constants_run_le populated).trans few
  have ledgers : (run first).2 = (run second).2 := by
    obtain ⟨-, last⟩ := run_of_populate populated
    obtain ⟨-, last'⟩ := run_of_populate populated'
    exact Finmap.ext_lookup fun fact => by rw [last, last', same]
  have fewSecond : (run second).2.constants.card ≤ UInt32.size := by rwa [← ledgers]
  obtain ⟨chances, sorted, domain⟩ := reads_of_populate populated fewFirst
  obtain ⟨chances', sorted', domain'⟩ := reads_of_populate populated' fewSecond
  have sameChance : s.chance = s'.chance := funext fun fact => by rw [chances, chances', same]
  have sameDomain : s.domain = s'.domain :=
    NameSet.eq_of_mem_iff sorted sorted' fun c => by simp only [domain, domain', same]
  constructor
  · intro q options
    simp only [Query.evaluateIn, Plan.evaluateIn, sameChance, sameDomain]
  · intro f options
    simp only [Formula.evaluateIn, Plan.evaluateIn, sameChance, sameDomain]

/-- A fact that is written twice. -/
def overwriting : List (Attempt Rat) :=
  [⟨"S", [.const "b"], 1 / 3⟩, ⟨"R", [.const "a", .const "b"], 1 / 2⟩,
    ⟨"R", [.const "a", .const "b"], 1 / 4⟩]

/-- What was written last, in another order. -/
def rearranged : List (Attempt Rat) :=
  [⟨"R", [.const "a", .const "b"], 1 / 4⟩, ⟨"S", [.const "b"], 1 / 3⟩]

/-- Neither the numbers of the constants nor the tables are in the same order. -/
theorem evaluateIn_eq_rearranged :
    ∃ s s', populate overwriting = .ok s ∧ populate rearranged = .ok s' ∧
      (constantsOf overwriting).card ≤ UInt32.size ∧
      (∀ fact, lastWritten overwriting fact = lastWritten rearranged fact) ∧
      (s.constants.names, s'.constants.names) = (["b", "a"], ["a", "b"]) ∧
      (s.byRelation.keys, s'.byRelation.keys) = (["S", "R"], ["R", "S"]) ∧
      (∀ (q : Query) options, q.evaluateIn s options = q.evaluateIn s' options) ∧
      ∀ (f : Formula) options, f.evaluateIn s options = f.evaluateIn s' options := by
  have succeeds : (populate overwriting).toOption.isSome = true := by decide +kernel
  obtain ⟨s, populated⟩ := Option.isSome_iff_exists.1 succeeds
  rw [toOption_eq_some_iff] at populated
  have kept : rearranged.reverse.Sublist overwriting := .cons_cons _ (.cons _ (.refl _))
  obtain ⟨s', populated'⟩ :=
    (populate_perm rearranged.reverse_perm).1 (populate_sublist kept ⟨s, populated⟩)
  have few : (constantsOf overwriting).card ≤ UInt32.size := by decide +kernel
  have same : ∀ fact, lastWritten overwriting fact = lastWritten rearranged fact := by
    intro fact
    have again : ∃ b ∈ overwriting.drop 2, b.fact = ⟨"R", ["a", "b"]⟩ :=
      ⟨_, List.mem_singleton_self _, rfl⟩
    calc lastWritten overwriting fact
        = lastWritten rearranged.reverse fact :=
          lastWritten_overwritten (overwriting.take 1) (a := overwriting[1]) again fact
      _ = lastWritten rearranged fact :=
          lastWritten_perm (by decide) rearranged.reverse_perm fact
  have evaluations := evaluateIn_eq_of_lastWritten populated populated' few same
  refine ⟨s, s', populated, populated', few, same, ?_, ?_, evaluations⟩
  · rw [← (run_of_populate populated).1, ← (run_of_populate populated').1]
    decide +kernel
  · rw [← (run_of_populate populated).1, ← (run_of_populate populated').1]
    decide +kernel

end InternedStore

end SafePlan
