/-
# SafePlan.Proofs.Agreement — both forms of a store say the same

Evaluation is over a `Store`, which lists facts; what is added and read one by
one is laid out with numbers for constants. The same attempts are accepted by
both (`complaint?` only asks for an arity), and afterwards both hold the same
ledger. So evaluation may be thought of as reading the layout: the domain and
the probability of every fact are the same (`run_domain_eq`, `run_chance_eq`).
-/
import SafePlan.Proofs.Ledger

set_option autoImplicit false

namespace SafePlan

namespace Store

variable {P : Type} [Arithmetic P]

/-- The entries as a table. -/
def table (s : Store P) : Table Fact P := ⟨s.entries, s.distinct⟩

theorem chance_eq (s : Store P) (fact : Fact) :
    s.chance fact = (s.table.get? fact).getD Arithmetic.zero := by
  rw [chance, Table.get?, table]
  cases s.entries.find? (·.1 = fact) <;> rfl

/-- The last probability that a fact was added with is the one it has. -/
theorem chance_insert (s : Store P) {relation : Name} {tuple : List Term} {p : P}
    (faultless : s.fault? relation tuple p = none) (fact : Fact) :
    (s.insert relation tuple p faultless).chance fact =
      if fact = ⟨relation, tuple.map Term.name⟩ then Arithmetic.canonical p else s.chance fact := by
  have found := Table.get?_insert s.table ⟨relation, tuple.map Term.name⟩
    (Arithmetic.canonical p) fact
  rw [chance_eq, chance_eq]
  refine (congrArg (Option.getD · Arithmetic.zero) found).trans ?_
  split <;> rfl

theorem mem_domain {s : Store P} {c : Name} :
    c ∈ s.domain ↔ ∃ fact p, s.table.get? fact = some p ∧ c ∈ fact.tuple := by
  simp only [domain, NameSet.mem_ofList, List.mem_flatMap, Prod.exists, Table.get?_eq_some_iff,
    table, exists_and_right]

/-- The arity of a relation is the length of any of its tuples. -/
theorem arity?_eq_some_iff {s : Store P} {relation : Name} {arity : Nat} :
    s.arity? relation = some arity ↔
      ∃ tuple p, s.table.get? ⟨relation, tuple⟩ = some p ∧ tuple.length = arity := by
  simp only [Table.get?_eq_some_iff, table]
  constructor
  · intro found
    obtain ⟨⟨⟨other, tuple⟩, p⟩, first, length⟩ := Option.map_eq_some_iff.1 found
    obtain rfl : other = relation := by simpa using List.find?_some first
    exact ⟨tuple, p, List.mem_of_find?_eq_some first, length⟩
  · rintro ⟨tuple, p, listed, rfl⟩
    cases found : s.entries.find? (·.1.relation = relation) with
    | none => simpa using List.find?_eq_none.1 found _ listed
    | some first =>
      have same : first.1.relation = relation := by simpa using List.find?_some found
      rw [arity?, found, Option.map_some]
      exact congrArg some (s.uniform first (List.mem_of_find?_eq_some found) _ listed same)

/-- One attempt; a refused one changes nothing. -/
def attempt (s : Store P) (a : Attempt P) : Store P :=
  match s.add a.relation a.tuple a.probability with
  | .ok s => s
  | .error _ => s

/-- The store after some attempts. -/
def run (attempts : List (Attempt P)) : Store P := attempts.foldl attempt empty

theorem run_concat (attempts : List (Attempt P)) (a : Attempt P) :
    run (attempts ++ [a]) = attempt (run attempts) a := by
  rw [run, List.foldl_append]
  rfl

theorem get?_attempt (s : Store P) (a : Attempt P) (fact : Fact) :
    (attempt s a).table.get? fact =
      if (complaint? (s.arity? a.relation) a.relation a.tuple a.probability).isNone ∧
          fact = a.fact then
        some (Arithmetic.canonical a.probability)
      else s.table.get? fact := by
  rw [attempt, add]
  split <;> rename_i outcome <;> split at outcome <;> rename_i verdict
  · cases outcome
  · obtain rfl := Except.ok.inj outcome
    have accepted : complaint? (s.arity? a.relation) a.relation a.tuple a.probability = none :=
      verdict
    simp only [accepted, Option.isNone_none, true_and]
    exact Table.get?_insert s.table a.fact _ fact
  · have refused : complaint? (s.arity? a.relation) a.relation a.tuple a.probability = some _ :=
      verdict
    rw [refused, if_neg (by simp)]
  · cases outcome

end Store

namespace InternedStore

variable {P : Type} [Arithmetic P]

theorem lookup_attempt (state : InternedStore P × Ledger P) (a : Attempt P) (fact : Fact) :
    (attempt state a).2.lookup fact =
      if (Store.complaint? (state.1.arity? a.relation) a.relation a.tuple a.probability).isNone ∧
          fact = a.fact then
        some (Arithmetic.canonical a.probability)
      else state.2.lookup fact := by
  rw [attempt, add]
  cases Store.complaint? (state.1.arity? a.relation) a.relation a.tuple a.probability with
  | some fault => simp
  | none =>
    by_cases same : fact = a.fact
    · subst same
      simp
    · simp [same]

theorem arity?_eq_of_represents {s : InternedStore P} {ledger : Ledger P} {s' : Store P}
    (represents : Represents s ledger) (same : ∀ fact, s'.table.get? fact = ledger.lookup fact)
    (relation : Name) : s.arity? relation = s'.arity? relation := by
  refine Option.ext fun arity => ?_
  rw [Store.arity?_eq_some_iff]
  simp only [same]
  constructor
  · intro found
    obtain ⟨rows, foundRows, -⟩ := Option.map_eq_some_iff.1 found
    obtain ⟨tuple, stored⟩ := represents.exists_rows_iff.1 ⟨rows, foundRows⟩
    obtain ⟨p, lookup⟩ := Finmap.mem_iff.1 stored
    exact ⟨tuple, p, lookup, Option.some.inj ((represents.arity?_eq stored).symm.trans found)⟩
  · rintro ⟨tuple, p, lookup, rfl⟩
    exact represents.arity?_eq (Finmap.mem_iff.2 ⟨p, lookup⟩)

/-- Both forms accept the same attempts and hold the same ledger. -/
theorem get?_run (attempts : List (Attempt P))
    (few : (run attempts).1.constants.names.length ≤ UInt32.size) (fact : Fact) :
    (Store.run attempts).table.get? fact = (run attempts).2.lookup fact := by
  induction attempts using List.reverseRecOn generalizing fact with
  | nil => rfl
  | append_singleton attempts a ih =>
    rw [run_concat] at few
    have fewBefore := (length_names_attempt _ a).trans few
    have same := ih fewBefore
    rw [Store.run_concat, run_concat, Store.get?_attempt, lookup_attempt, same,
      arity?_eq_of_represents (represents_run attempts fewBefore) same]

theorem run_chance_eq (attempts : List (Attempt P))
    (few : (run attempts).2.constants.card ≤ UInt32.size) (fact : Fact) :
    (Store.run attempts).chance fact = (run attempts).1.lookup fact.relation fact.tuple := by
  have fewNames := (tracks_run attempts).length_names_le.trans few
  rw [Store.chance_eq, get?_run attempts fewNames, (represents_run attempts fewNames).lookup_eq]

theorem run_domain_eq (attempts : List (Attempt P))
    (few : (run attempts).2.constants.card ≤ UInt32.size) :
    (Store.run attempts).domain = (run attempts).1.domain := by
  have tracks := tracks_run attempts
  have fewNames := tracks.length_names_le.trans few
  refine NameSet.eq_of_mem_iff (NameSet.increasing_ofList _) tracks.sorted fun c => ?_
  rw [Store.mem_domain, tracks.domain]
  simp only [get?_run attempts fewNames, Finmap.mem_iff, exists_and_right]

end InternedStore

end SafePlan
