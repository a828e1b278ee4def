/-
# SafePlan.Proofs.Ledger — a store says what was added last

A `Ledger` is a plain finite map from facts to probabilities. After any attempts
to add, refused ones among them, a store as it is laid out says of every fact,
relation and column what the ledger of the accepted ones says (`run_refines`).

`Represents` is the invariant. What is stored under a tuple's numbers is what the
ledger has at the tuple, every key of a table is the numbers of some tuple, and
the interned constants are the active domain. Two things could break it: a
constant that gets a new number must not make an old key readable as something
else, and two constants must not share a number. Both come down to reading
numbers back (`filterMap_name?_of_ids?`), which is right while there are at most
`2 ^ 32` constants.
-/
import Mathlib.Data.Finmap
import SafePlan.InternedStore
import SafePlan.Proofs.Outcome

set_option autoImplicit false

namespace SafePlan

/-! ## Numbers of tuples -/

namespace Interner

variable {i : Interner} {names others : List Name} {key : List UInt32}

theorem ids?_eq_some_iff :
    i.ids? names = some key ↔ List.Forall₂ (fun name id => i.id? name = some id) names key :=
  mapM_eq_some_iff

theorem ids?_internAll (i : Interner) (names : List Name) :
    (internAll names i).2.ids? names = some (internAll names i).1 := by
  rw [ids?_eq_some_iff]
  induction names generalizing i with
  | nil => exact .nil
  | cons name rest ih =>
    exact .cons (id?_internAll_of_known rest (id?_intern i name)) (ih (i.intern name).2)

theorem ids?_internAll_of_known (others : List Name) (known : i.ids? names = some key) :
    (internAll others i).2.ids? names = some key := by
  rw [ids?_eq_some_iff] at known ⊢
  exact known.imp fun name id => id?_internAll_of_known others

theorem map_name?_of_ids? (few : i.names.length ≤ UInt32.size) (known : i.ids? names = some key) :
    key.map i.name? = names.map some := by
  rw [ids?_eq_some_iff] at known
  induction known with
  | nil => rfl
  | cons here _ ih => rw [List.map_cons, List.map_cons, name?_of_id? few here, ih]

/-- A tuple is read back from its numbers. -/
theorem filterMap_name?_of_ids? (few : i.names.length ≤ UInt32.size)
    (known : i.ids? names = some key) : key.filterMap i.name? = names := by
  have same := congrArg (List.filterMap id) (map_name?_of_ids? few known)
  simpa [List.filterMap_map] using same

/-- So no two tuples have the same numbers. -/
theorem eq_of_ids? (few : i.names.length ≤ UInt32.size) (known : i.ids? names = some key)
    (knownOthers : i.ids? others = some key) : names = others := by
  rw [← filterMap_name?_of_ids? few known, filterMap_name?_of_ids? few knownOthers]

/-- So is any one element. -/
theorem getElem?_of_ids? (few : i.names.length ≤ UInt32.size) (known : i.ids? names = some key)
    (position : Nat) (c : Name) :
    names[position]? = some c ↔ ∃ id, key[position]? = some id ∧ i.name? id = some c := by
  have same := congrArg (·[position]?) (map_name?_of_ids? few known)
  simp only [List.getElem?_map] at same
  cases here : names[position]? <;> cases there : key[position]? <;> simp_all

theorem length_le_internAll (i : Interner) (names : List Name) :
    i.names.length ≤ (internAll names i).2.names.length :=
  (i.nodup_names.subperm fun _ listed => mem_names_internAll.2 (.inr listed)).length_le

end Interner

/-! ## Ledgers -/

/-- A plain finite map from facts to probabilities. -/
abbrev Ledger (P : Type) := Finmap fun _ : Fact => P

/-- The constants of the facts in a ledger. -/
def Ledger.constants {P : Type} (ledger : Ledger P) : Finset Name :=
  ledger.keys.biUnion fun fact => fact.tuple.toFinset

/-- What is to be added. -/
structure Attempt (P : Type) where
  relation : Name
  tuple : List Term
  probability : P

def Attempt.fact {P : Type} (a : Attempt P) : Fact := ⟨a.relation, a.tuple.map Term.name⟩

namespace InternedStore

variable {P : Type}

/-- The store answers as the ledger does. -/
structure Refines [Arithmetic P] (s : InternedStore P) (ledger : Ledger P) : Prop where
  lookup : ∀ relation tuple,
    s.lookup relation tuple = (ledger.lookup ⟨relation, tuple⟩).getD Arithmetic.zero
  size : s.size = ledger.keys.card
  tuplesOnce : ∀ relation, ((s.tuples relation).map Prod.fst).Nodup
  tuples : ∀ relation tuple p,
    (tuple, p) ∈ s.tuples relation ↔ ledger.lookup ⟨relation, tuple⟩ = some p
  relationsSorted : NameSet.Increasing s.relations
  relations : ∀ relation, relation ∈ s.relations ↔ ∃ tuple, (⟨relation, tuple⟩ : Fact) ∈ ledger
  arity : ∀ relation tuple, (⟨relation, tuple⟩ : Fact) ∈ ledger →
    s.arity? relation = some tuple.length
  noArity : ∀ relation, s.arity? relation = none ↔ ∀ tuple, (⟨relation, tuple⟩ : Fact) ∉ ledger
  valuesSorted : ∀ relation position, NameSet.Increasing (s.valuesAt relation position)
  values : ∀ relation position c, c ∈ s.valuesAt relation position ↔
    ∃ tuple, (⟨relation, tuple⟩ : Fact) ∈ ledger ∧ tuple[position]? = some c
  domainSorted : NameSet.Increasing s.domain
  domain : ∀ c, c ∈ s.domain ↔ ∃ fact ∈ ledger, c ∈ fact.tuple
  columns : ∀ c, c ∈ s.domain ↔ ∃ relation position, c ∈ s.valuesAt relation position

/-! ## The domain -/

/-- What holds of the domain whatever the numbers are. -/
structure Tracks (s : InternedStore P) (ledger : Ledger P) : Prop where
  sorted : NameSet.Increasing s.domain
  domain : ∀ c, c ∈ s.domain ↔ ∃ fact ∈ ledger, c ∈ fact.tuple
  interned : ∀ c, c ∈ s.constants.names ↔ c ∈ s.domain

theorem mem_foldl_insert {tuple : List Name} {set : NameSet} {c : Name} :
    c ∈ tuple.foldl (fun set c => NameSet.insert c set) set ↔ c ∈ tuple ∨ c ∈ set := by
  induction tuple generalizing set with
  | nil => simp
  | cons first rest ih =>
    rw [List.foldl_cons, ih, NameSet.mem_insert, List.mem_cons]
    exact or_left_comm.trans or_assoc.symm

theorem increasing_foldl_insert {tuple : List Name} {set : NameSet}
    (sorted : NameSet.Increasing set) :
    NameSet.Increasing (tuple.foldl (fun set c => NameSet.insert c set) set) := by
  induction tuple generalizing set with
  | nil => exact sorted
  | cons first rest ih => exact ih (NameSet.increasing_insert sorted)

variable {s : InternedStore P} {ledger : Ledger P}

theorem Tracks.empty : Tracks (InternedStore.empty : InternedStore P) ∅ where
  sorted := List.Pairwise.nil
  domain c := by simp [InternedStore.empty, Finmap.notMem_empty]
  interned c := by simp [InternedStore.empty, Interner.empty]

theorem Tracks.insert (tracks : Tracks s ledger) (relation : Name) (tuple : List Name) (p : P) :
    Tracks (s.insert relation tuple p) (ledger.insert ⟨relation, tuple⟩ p) where
  sorted := increasing_foldl_insert tracks.sorted
  domain c := by
    show c ∈ tuple.foldl _ s.domain ↔ _
    rw [mem_foldl_insert, tracks.domain]
    simp only [Finmap.mem_insert]
    constructor
    · rintro (new | ⟨fact, listed, occurs⟩)
      · exact ⟨_, .inl rfl, new⟩
      · exact ⟨fact, .inr listed, occurs⟩
    · rintro ⟨fact, rfl | listed, occurs⟩
      · exact .inl occurs
      · exact .inr ⟨fact, listed, occurs⟩
  interned c := by
    show c ∈ (Interner.internAll tuple s.constants).2.names ↔ c ∈ tuple.foldl _ s.domain
    rw [Interner.mem_names_internAll, mem_foldl_insert, tracks.interned]

/-- Every interned constant is one of the ledger's. -/
theorem Tracks.length_names_le (tracks : Tracks s ledger) :
    s.constants.names.length ≤ ledger.constants.card := by
  rw [← List.toFinset_card_of_nodup s.constants.nodup_names]
  refine Finset.card_le_card fun c listed => ?_
  obtain ⟨fact, stored, occurs⟩ :=
    (tracks.domain c).1 ((tracks.interned c).1 (List.mem_toFinset.1 listed))
  exact Finset.mem_biUnion.2 ⟨fact, Finmap.mem_keys.2 stored, List.mem_toFinset.2 occurs⟩

/-! ## The tables -/

/-- The tables hold the ledger. -/
structure Represents (s : InternedStore P) (ledger : Ledger P) : Prop where
  stored : ∀ relation tuple, ledger.lookup ⟨relation, tuple⟩ =
    (s.byRelation.get? relation).bind fun rows =>
      (s.constants.ids? tuple).bind rows.tuples.get?
  keyed : ∀ relation rows, s.byRelation.get? relation = some rows →
    ∀ key ∈ rows.tuples.keys, ∃ tuple,
      s.constants.ids? tuple = some key ∧ tuple.length = rows.arity
  inhabited : ∀ relation rows, s.byRelation.get? relation = some rows → rows.tuples.keys ≠ []

theorem Represents.empty : Represents (InternedStore.empty : InternedStore P) ∅ where
  stored relation tuple := by simp [InternedStore.empty]
  keyed relation rows found := by simp [InternedStore.empty] at found
  inhabited relation rows found := by simp [InternedStore.empty] at found

/-- New constants make no old key readable: a key of a table is the numbers of a
tuple that had them before. -/
theorem ids?_bind_get? {i : Interner} {rows : Relation P} {more : List Name}
    (few : (Interner.internAll more i).2.names.length ≤ UInt32.size)
    (keyed : ∀ key ∈ rows.tuples.keys, ∃ tuple, i.ids? tuple = some key ∧ tuple.length = rows.arity)
    (tuple : List Name) :
    ((Interner.internAll more i).2.ids? tuple).bind rows.tuples.get? =
      (i.ids? tuple).bind rows.tuples.get? := by
  cases before : i.ids? tuple with
  | some key => rw [Interner.ids?_internAll_of_known more before]
  | none =>
    cases after : (Interner.internAll more i).2.ids? tuple with
    | none => rfl
    | some key =>
      rw [Option.bind_some, Option.bind_none, Table.get?_eq_none_iff]
      intro listed
      obtain ⟨other, known, -⟩ := keyed key listed
      obtain rfl :=
        Interner.eq_of_ids? few after (Interner.ids?_internAll_of_known more known)
      rw [known] at before
      cases before

section Rows

variable {relation : Name} {arity : Nat}

theorem Represents.keyed_rows (represents : Represents s ledger) (relation : Name) (arity : Nat) :
    ∀ key ∈ (s.rows relation arity).tuples.keys, ∃ tuple,
      s.constants.ids? tuple = some key ∧ tuple.length = (s.rows relation arity).arity := by
  rw [rows]
  cases existing : s.byRelation.get? relation with
  | none => simp [Table.empty, Table.keys]
  | some rows => exact represents.keyed relation rows existing

theorem Represents.stored_rows (represents : Represents s ledger) (relation : Name) (arity : Nat)
    (tuple : List Name) : ledger.lookup ⟨relation, tuple⟩ =
      (s.constants.ids? tuple).bind (s.rows relation arity).tuples.get? := by
  rw [represents.stored, rows]
  cases s.byRelation.get? relation with
  | none => cases s.constants.ids? tuple <;> rfl
  | some rows => rfl

theorem arity_rows
    (fits : ∀ rows, s.byRelation.get? relation = some rows → rows.arity = arity) :
    (s.rows relation arity).arity = arity := by
  rw [rows]
  cases existing : s.byRelation.get? relation with
  | none => rfl
  | some rows => exact fits rows existing

end Rows

section Insert

variable {relation : Name} {tuple : List Name} {key : List UInt32} {p : P}

theorem byRelation_insert (s : InternedStore P) (relation : Name) (tuple : List Name) (p : P) :
    (s.insert relation tuple p).byRelation =
      let key := (Interner.internAll tuple s.constants).1
      let rows := s.rows relation key.length
      s.byRelation.insert relation ⟨rows.arity, rows.tuples.insert key p⟩ := rfl

theorem get?_byRelation_insert (p : P)
    (interned : (Interner.internAll tuple s.constants).1 = key)
    (fits : ∀ rows, s.byRelation.get? relation = some rows → rows.arity = key.length)
    (other : Name) :
    (s.insert relation tuple p).byRelation.get? other =
      if other = relation then
        some ⟨key.length, (s.rows relation key.length).tuples.insert key p⟩
      else s.byRelation.get? other := by
  subst interned
  rw [byRelation_insert, Table.get?_insert, arity_rows fits]

/-- The relation's table with one more key holds what the ledger with one more
fact has there. -/
theorem Represents.stored_insert (represents : Represents s ledger)
    (few : (Interner.internAll tuple s.constants).2.names.length ≤ UInt32.size)
    (known : (Interner.internAll tuple s.constants).2.ids? tuple = some key)
    (arity : Nat) (others : List Name) :
    (ledger.insert ⟨relation, tuple⟩ p).lookup ⟨relation, others⟩ =
      ((Interner.internAll tuple s.constants).2.ids? others).bind
        ((s.rows relation arity).tuples.insert key p).get? := by
  by_cases here : others = tuple
  · subst here
    rw [Finmap.lookup_insert, known, Option.bind_some, Table.get?_insert, if_pos rfl]
  · have apart : (⟨relation, others⟩ : Fact) ≠ ⟨relation, tuple⟩ :=
      fun facts => here (Fact.mk.inj facts).2
    rw [Finmap.lookup_insert_of_ne _ apart, represents.stored_rows relation arity,
      ← ids?_bind_get? few (represents.keyed_rows relation arity)]
    refine Option.bind_congr fun key' after => ?_
    have different : key' ≠ key := by
      rintro rfl
      exact here (Interner.eq_of_ids? few after known)
    rw [Table.get?_insert, if_neg different]

/-- **Adding a fact keeps the invariant**, if there are numbers for its constants. -/
theorem Represents.insert (represents : Represents s ledger)
    (few : (s.insert relation tuple p).constants.names.length ≤ UInt32.size)
    (fits : ∀ rows, s.byRelation.get? relation = some rows → rows.arity = tuple.length) :
    Represents (s.insert relation tuple p) (ledger.insert ⟨relation, tuple⟩ p) := by
  obtain ⟨key, interned⟩ : ∃ key, (Interner.internAll tuple s.constants).1 = key := ⟨_, rfl⟩
  have known : (Interner.internAll tuple s.constants).2.ids? tuple = some key :=
    interned ▸ Interner.ids?_internAll s.constants tuple
  have lengths : tuple.length = key.length := (Interner.ids?_eq_some_iff.1 known).length_eq
  rw [lengths] at fits
  have found := get?_byRelation_insert p interned fits
  refine ⟨fun other others => ?stored, fun other rows at_other key' listed => ?keyed,
    fun other rows at_other => ?inhabited⟩
  case stored =>
    rw [found]
    by_cases same : other = relation
    · subst same
      rw [if_pos rfl, Option.bind_some]
      exact represents.stored_insert few known key.length others
    · have apart : (⟨other, others⟩ : Fact) ≠ ⟨relation, tuple⟩ :=
        fun facts => same (Fact.mk.inj facts).1
      rw [if_neg same, Finmap.lookup_insert_of_ne _ apart, represents.stored]
      exact Option.bind_congr fun rows existing =>
        (ids?_bind_get? few (represents.keyed other rows existing) others).symm
  case keyed =>
    rw [found] at at_other
    split at at_other
    · cases at_other
      rcases Table.mem_keys_insert.1 listed with rfl | old
      · exact ⟨tuple, known, lengths⟩
      · obtain ⟨others, knownOld, length⟩ := represents.keyed_rows relation key.length key' old
        exact ⟨others, Interner.ids?_internAll_of_known tuple knownOld,
          length.trans (arity_rows fits)⟩
    · obtain ⟨others, knownOld, length⟩ := represents.keyed other rows at_other key' listed
      exact ⟨others, Interner.ids?_internAll_of_known tuple knownOld, length⟩
  case inhabited =>
    rw [found] at at_other
    split at at_other
    · cases at_other
      exact List.ne_nil_of_mem (Table.mem_keys_insert.2 (.inl rfl))
    · exact represents.inhabited other rows at_other

end Insert

/-! ## Reading -/

section Reading

variable {relation : Name} {tuple : List Name} {key : List UInt32} {rows : Relation P} {p : P}

theorem Represents.lookup_eq_some_iff (represents : Represents s ledger) :
    ledger.lookup ⟨relation, tuple⟩ = some p ↔ ∃ rows key, s.byRelation.get? relation = some rows ∧
      s.constants.ids? tuple = some key ∧ (key, p) ∈ rows.tuples.entries := by
  rw [represents.stored]
  simp only [Option.bind_eq_some_iff, Table.get?_eq_some_iff, exists_and_left]

/-- A stored tuple has the arity of its relation. -/
theorem Represents.length_eq (represents : Represents s ledger)
    (found : s.byRelation.get? relation = some rows) (known : s.constants.ids? tuple = some key)
    (listed : (key, p) ∈ rows.tuples.entries) : tuple.length = rows.arity := by
  obtain ⟨other, knownOther, length⟩ :=
    represents.keyed relation rows found key (List.mem_map_of_mem listed)
  calc tuple.length = key.length := (Interner.ids?_eq_some_iff.1 known).length_eq
    _ = other.length := (Interner.ids?_eq_some_iff.1 knownOther).length_eq.symm
    _ = rows.arity := length

/-- A stored key reads back as the tuple that it stands for. -/
theorem Represents.ids?_resolve (represents : Represents s ledger)
    (few : s.constants.names.length ≤ UInt32.size) (found : s.byRelation.get? relation = some rows)
    (listed : key ∈ rows.tuples.keys) :
    s.constants.ids? (s.resolve key) = some key ∧ (s.resolve key).length = rows.arity := by
  obtain ⟨tuple, known, length⟩ := represents.keyed relation rows found key listed
  rw [resolve, Interner.filterMap_name?_of_ids? few known]
  exact ⟨known, length⟩

theorem Represents.lookup_eq [Arithmetic P] (represents : Represents s ledger) (relation : Name)
    (tuple : List Name) :
    s.lookup relation tuple = (ledger.lookup ⟨relation, tuple⟩).getD Arithmetic.zero := by
  have stored := represents.stored relation tuple
  rw [lookup]
  cases found : s.byRelation.get? relation with
  | none => rw [stored, found]; rfl
  | some rows =>
    rw [found, Option.bind_some] at stored
    dsimp only
    split <;> rename_i arity
    · rw [stored]
      cases s.constants.ids? tuple <;> rfl
    · cases there : ledger.lookup ⟨relation, tuple⟩ with
      | none => rfl
      | some p =>
        obtain ⟨rows', key, found', known, listed⟩ := represents.lookup_eq_some_iff.1 there
        obtain rfl : rows' = rows := Option.some.inj (found'.symm.trans found)
        exact absurd (represents.length_eq found known listed).symm arity

theorem Represents.mem_tuples_iff (represents : Represents s ledger)
    (few : s.constants.names.length ≤ UInt32.size) :
    (tuple, p) ∈ s.tuples relation ↔ ledger.lookup ⟨relation, tuple⟩ = some p := by
  rw [represents.lookup_eq_some_iff, tuples]
  cases found : s.byRelation.get? relation with
  | none => simp
  | some rows =>
    simp only [List.mem_map, Prod.exists, Prod.mk.injEq, Option.some.injEq, exists_and_left,
      exists_eq_left']
    constructor
    · rintro ⟨key, q, listed, rfl, rfl⟩
      exact ⟨key, (represents.ids?_resolve few found (List.mem_map_of_mem listed)).1, listed⟩
    · rintro ⟨key, known, listed⟩
      exact ⟨key, p, listed, Interner.filterMap_name?_of_ids? few known, rfl⟩

theorem Represents.nodup_tuples (represents : Represents s ledger)
    (few : s.constants.names.length ≤ UInt32.size) (relation : Name) :
    ((s.tuples relation).map Prod.fst).Nodup := by
  rw [tuples]
  cases found : s.byRelation.get? relation with
  | none => exact List.nodup_nil
  | some rows =>
    have keys : (rows.tuples.entries.map fun row => (s.resolve row.1, row.2)).map Prod.fst =
        rows.tuples.keys.map s.resolve := by
      simp [Table.keys, Function.comp_def]
    show ((rows.tuples.entries.map fun row => (s.resolve row.1, row.2)).map Prod.fst).Nodup
    rw [keys]
    refine List.Nodup.map_on (fun key listed key' listed' same => ?_) rows.tuples.distinct
    have known := (represents.ids?_resolve few found listed).1
    have known' := (represents.ids?_resolve few found listed').1
    rw [same, known'] at known
    exact (Option.some.inj known).symm

/-- A relation is there exactly when the ledger has a fact of it. -/
theorem Represents.exists_rows_iff (represents : Represents s ledger) :
    (∃ rows, s.byRelation.get? relation = some rows) ↔
      ∃ tuple, (⟨relation, tuple⟩ : Fact) ∈ ledger := by
  simp only [Finmap.mem_iff, represents.lookup_eq_some_iff]
  constructor
  · rintro ⟨rows, found⟩
    obtain ⟨key, listed⟩ := List.exists_mem_of_ne_nil _ (represents.inhabited relation rows found)
    obtain ⟨tuple, known, -⟩ := represents.keyed relation rows found key listed
    obtain ⟨⟨key', p⟩, listedEntry, rfl⟩ := List.mem_map.1 listed
    exact ⟨tuple, p, rows, key', found, known, listedEntry⟩
  · rintro ⟨tuple, p, rows, key, found, -, -⟩
    exact ⟨rows, found⟩

theorem Represents.arity?_eq (represents : Represents s ledger)
    (stored : (⟨relation, tuple⟩ : Fact) ∈ ledger) : s.arity? relation = some tuple.length := by
  obtain ⟨p, stored⟩ := Finmap.mem_iff.1 stored
  obtain ⟨rows, key, found, known, listed⟩ := represents.lookup_eq_some_iff.1 stored
  rw [arity?, found, Option.map_some, represents.length_eq found known listed]

theorem Represents.mem_valuesAt_iff (represents : Represents s ledger)
    (few : s.constants.names.length ≤ UInt32.size) {position : Nat} {c : Name} :
    c ∈ s.valuesAt relation position ↔
      ∃ tuple, (⟨relation, tuple⟩ : Fact) ∈ ledger ∧ tuple[position]? = some c := by
  simp only [Finmap.mem_iff, represents.lookup_eq_some_iff]
  rw [valuesAt]
  cases found : s.byRelation.get? relation with
  | none => simp
  | some rows =>
    simp only [NameSet.mem_ofList, resolve, List.mem_filterMap, Option.some.injEq, exists_and_left,
      exists_eq_left']
    constructor
    · rintro ⟨id, ⟨key, listed, stands⟩, named⟩
      obtain ⟨tuple, known, -⟩ := represents.keyed relation rows found key listed
      obtain ⟨⟨key', p⟩, listedEntry, rfl⟩ := List.mem_map.1 listed
      exact ⟨tuple, ⟨p, key', known, listedEntry⟩,
        (Interner.getElem?_of_ids? few known position c).2 ⟨id, stands, named⟩⟩
    · rintro ⟨tuple, ⟨p, key, known, listed⟩, stands⟩
      obtain ⟨id, standsId, named⟩ := (Interner.getElem?_of_ids? few known position c).1 stands
      exact ⟨id, ⟨key, List.mem_map_of_mem listed, standsId⟩, named⟩

theorem increasing_valuesAt (s : InternedStore P) (relation : Name) (position : Nat) :
    NameSet.Increasing (s.valuesAt relation position) := by
  rw [valuesAt]
  split
  · exact List.Pairwise.nil
  · exact NameSet.increasing_ofList _

theorem increasing_relations (s : InternedStore P) : NameSet.Increasing s.relations := by
  have sorted : s.relations.Pairwise fun a b => decide (a ≤ b) = true :=
    List.pairwise_mergeSort (fun a b c => by simpa using String.le_trans)
      (fun a b => by simpa using String.le_total a b) _
  have distinct : s.relations.Nodup :=
    (List.mergeSort_perm _ _).nodup_iff.2 s.byRelation.distinct
  refine (sorted.and distinct).imp fun {a b} ⟨before, different⟩ => ?_
  exact Classical.byContradiction fun notBefore =>
    different (String.le_antisymm (of_decide_eq_true before) (String.not_lt.1 notBefore))

/-- The facts, relation by relation. -/
def facts (s : InternedStore P) : List Fact :=
  s.byRelation.entries.flatMap fun entry =>
    ((s.tuples entry.1).map Prod.fst).map (Fact.mk entry.1)

theorem length_facts (s : InternedStore P) : s.facts.length = s.size := by
  have each : ∀ entry ∈ s.byRelation.entries,
      (((s.tuples entry.1).map Prod.fst).map (Fact.mk entry.1)).length = entry.2.tuples.size := by
    intro entry listed
    have found := Table.get?_eq_some_iff.2 listed
    simp [tuples, found, Table.size]
  rw [facts, List.length_flatMap, List.map_congr_left each, List.sum_eq_foldr, List.foldr_map]
  rfl

theorem Represents.nodup_facts (represents : Represents s ledger)
    (few : s.constants.names.length ≤ UInt32.size) : s.facts.Nodup := by
  refine List.nodup_flatMap.2 ⟨fun entry _ => ?_, ?_⟩
  · exact (represents.nodup_tuples few entry.1).map fun _ _ same => (Fact.mk.inj same).2
  · refine (List.pairwise_map.1 s.byRelation.distinct).imp fun different fact listed listed' => ?_
    obtain ⟨tuple, -, rfl⟩ := List.mem_map.1 listed
    obtain ⟨tuple', -, same⟩ := List.mem_map.1 listed'
    exact different (Fact.mk.inj same).1.symm

theorem Represents.mem_facts_iff (represents : Represents s ledger)
    (few : s.constants.names.length ≤ UInt32.size) {fact : Fact} :
    fact ∈ s.facts ↔ fact ∈ ledger := by
  simp only [facts, List.mem_flatMap, List.mem_map, Prod.exists, exists_and_right, exists_eq_right]
  constructor
  · rintro ⟨relation, ⟨rows, -⟩, tuple, ⟨p, listed⟩, rfl⟩
    exact Finmap.mem_iff.2 ⟨p, (represents.mem_tuples_iff few).1 listed⟩
  · intro stored
    obtain ⟨p, found⟩ := Finmap.mem_iff.1 stored
    obtain ⟨rows, foundRows⟩ := represents.exists_rows_iff.2 ⟨fact.tuple, stored⟩
    exact ⟨fact.relation, ⟨rows, Table.get?_eq_some_iff.1 foundRows⟩, fact.tuple,
      ⟨p, (represents.mem_tuples_iff few).2 found⟩, rfl⟩

theorem Represents.size_eq (represents : Represents s ledger)
    (few : s.constants.names.length ≤ UInt32.size) : s.size = ledger.keys.card := by
  have same : s.facts.toFinset = ledger.keys := by
    ext fact
    rw [List.mem_toFinset, represents.mem_facts_iff few, Finmap.mem_keys]
  rw [← length_facts, ← same, List.toFinset_card_of_nodup (represents.nodup_facts few)]

theorem Represents.refines [Arithmetic P] (represents : Represents s ledger)
    (tracks : Tracks s ledger) (few : s.constants.names.length ≤ UInt32.size) :
    Refines s ledger where
  lookup := represents.lookup_eq
  size := represents.size_eq few
  tuplesOnce := represents.nodup_tuples few
  tuples relation tuple p := represents.mem_tuples_iff few
  relationsSorted := s.increasing_relations
  relations relation := by
    rw [← represents.exists_rows_iff, relations, (List.mergeSort_perm _ _).mem_iff]
    exact Table.mem_keys_iff
  arity relation tuple := represents.arity?_eq
  noArity relation := by
    rw [arity?, Option.map_eq_none_iff, ← not_exists, ← represents.exists_rows_iff,
      Option.eq_none_iff_forall_ne_some, not_exists]
  valuesSorted := s.increasing_valuesAt
  values relation position c := represents.mem_valuesAt_iff few
  domainSorted := tracks.sorted
  domain := tracks.domain
  columns c := by
    simp only [tracks.domain, represents.mem_valuesAt_iff few]
    constructor
    · rintro ⟨⟨relation, tuple⟩, stored, occurs⟩
      obtain ⟨position, stands⟩ := List.mem_iff_getElem?.1 occurs
      exact ⟨relation, position, tuple, stored, stands⟩
    · rintro ⟨relation, position, tuple, stored, stands⟩
      exact ⟨⟨relation, tuple⟩, stored, List.mem_of_getElem? stands⟩

end Reading

/-! ## Runs -/

variable [Arithmetic P]

/-- One attempt, on a store and on the ledger of what it has accepted. -/
def attempt (state : InternedStore P × Ledger P) (a : Attempt P) : InternedStore P × Ledger P :=
  match state.1.add a.relation a.tuple a.probability with
  | .ok s => (s, state.2.insert a.fact (Arithmetic.canonical a.probability))
  | .error _ => state

/-- The store after some attempts, and the ledger of those that were accepted. -/
def run (attempts : List (Attempt P)) : InternedStore P × Ledger P :=
  attempts.foldl attempt (empty, ∅)

/-- What an attempt can do: nothing, or add a tuple of the arity of its relation. -/
theorem attempt_cases (state : InternedStore P × Ledger P) (a : Attempt P) :
    attempt state a = state ∨
      (∀ rows, state.1.byRelation.get? a.relation = some rows → rows.arity = a.fact.tuple.length) ∧
        attempt state a =
          (state.1.insert a.fact.relation a.fact.tuple (Arithmetic.canonical a.probability),
            state.2.insert a.fact (Arithmetic.canonical a.probability)) := by
  rw [attempt, add]
  cases complaint :
    Store.complaint? (state.1.arity? a.relation) a.relation a.tuple a.probability with
  | some fault => exact .inl rfl
  | none =>
    obtain ⟨-, -, -, fits⟩ := Store.complaint?_eq_none_iff.1 complaint
    refine .inr ⟨fun rows existing => ?_, rfl⟩
    rw [fits rows.arity (by rw [arity?, existing]; rfl), Attempt.fact, List.length_map]

/-- Constants are never forgotten. -/
theorem length_names_attempt (state : InternedStore P × Ledger P) (a : Attempt P) :
    state.1.constants.names.length ≤ (attempt state a).1.constants.names.length := by
  rcases attempt_cases state a with refused | ⟨-, accepted⟩
  · rw [refused]
  · rw [accepted]
    exact Interner.length_le_internAll _ _

theorem run_concat (attempts : List (Attempt P)) (a : Attempt P) :
    run (attempts ++ [a]) = attempt (run attempts) a := by
  rw [run, List.foldl_append]
  rfl

theorem tracks_run (attempts : List (Attempt P)) : Tracks (run attempts).1 (run attempts).2 := by
  induction attempts using List.reverseRecOn with
  | nil => exact Tracks.empty
  | append_singleton attempts a ih =>
    rw [run_concat]
    rcases attempt_cases (run attempts) a with refused | ⟨-, accepted⟩
    · rwa [refused]
    · rw [accepted]
      exact ih.insert _ _ _

/-- The invariant after any attempts, as long as the numbers last. -/
theorem represents_run (attempts : List (Attempt P))
    (few : (run attempts).1.constants.names.length ≤ UInt32.size) :
    Represents (run attempts).1 (run attempts).2 := by
  induction attempts using List.reverseRecOn with
  | nil => exact Represents.empty
  | append_singleton attempts a ih =>
    rw [run_concat] at few ⊢
    have before := ih ((length_names_attempt _ a).trans few)
    rcases attempt_cases (run attempts) a with refused | ⟨fits, accepted⟩
    · rwa [refused]
    · rw [accepted] at few ⊢
      exact before.insert few fits

/-- **A store is the finite map of what it accepted last.** After any attempts that
leave at most `2 ^ 32` constants, every way of reading the store answers as the
ledger of the accepted ones does. -/
theorem run_refines (attempts : List (Attempt P))
    (few : (run attempts).2.constants.card ≤ UInt32.size) :
    Refines (run attempts).1 (run attempts).2 := by
  have tracks := tracks_run attempts
  have fewNames := tracks.length_names_le.trans few
  exact (represents_run attempts fewNames).refines tracks fewNames

/-- Two accepted facts, one of them overwritten, among attempts refused for their
arity, a variable, a number and a missing name. -/
def mixedAttempts : List (Attempt Rat) :=
  [⟨"R", [.const "a", .const "b"], 1 / 2⟩, ⟨"R", [.const "c"], 1 / 3⟩,
    ⟨"S", [.const "d", .var "x"], 1 / 3⟩, ⟨"Flag", [], 1⟩, ⟨"S", [.const "a"], 3 / 2⟩,
    ⟨"R", [.const "a", .const "b"], 1 / 4⟩, ⟨"", [.const "e"], 1 / 3⟩]

theorem run_refines_mixedAttempts :
    (run mixedAttempts).2.constants.card ≤ UInt32.size ∧
      (run mixedAttempts).1.lookup "R" ["a", "b"] = 1 / 4 ∧ (run mixedAttempts).1.size = 2 ∧
      (run mixedAttempts).1.arity? "S" = none ∧ (run mixedAttempts).1.domain = ["a", "b"] := by
  have few : (run mixedAttempts).2.constants.card ≤ UInt32.size := by decide +kernel
  have refines := run_refines mixedAttempts few
  have stored : (run mixedAttempts).2.lookup ⟨"R", ["a", "b"]⟩ = some (1 / 4) := by decide +kernel
  have size : (run mixedAttempts).2.keys.card = 2 := by decide +kernel
  have flag : (run mixedAttempts).1.arity? "S" = none := by decide +kernel
  refine ⟨few, ?_, refines.size.trans size, flag, by decide +kernel⟩
  rw [refines.lookup, stored, Option.getD_some]

end InternedStore

end SafePlan
