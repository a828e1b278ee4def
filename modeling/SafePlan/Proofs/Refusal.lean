/-
# SafePlan.Proofs.Refusal — what a store refuses, and that it is then as before

`InternedStore.add` gives a store or a complaint, so nothing can be left behind by
a complaint. A store that is changed in place is another matter: the interner, the
domain and the table of the relation are written one after the other, and what is
written before a failure stays written. `addInPlace` is that, check by check and
write by write. It is all or nothing (`run_addInPlace`), because every check comes
before the first write: a refused tuple fixes no arity, gives no constant a number
and puts none into the domain.

What is refused is said without the checks: of doubles, what is not a number or lies
outside of `[0, 1]` (`isProbability_eq_false_iff`); of tuples, those of another length
than the relation holds (`Keyed.exists_length_iff`), which its first accepted tuple
has fixed (`arity?_inPlace`). `FirstComplaint` puts the four kinds in their order.
-/
import SafePlan.Proofs.Ledger

set_option autoImplicit false

namespace SafePlan

/-! ## Numbers outside of the range -/

section Doubles

open Float.Model (UnpackedFloat)

/-- Comparing the other way round. -/
theorem compare_swap (a b : UnpackedFloat) : b.compare a = (a.compare b).map Ordering.swap := by
  cases a with
  | notANumber => cases b with
    | infinity s | zero s | finite s => cases s <;> rfl
    | notANumber => rfl
  | infinity s | zero s => cases b with
    | infinity s' | zero s' | finite s' => cases s <;> cases s' <;> rfl
    | notANumber => cases s <;> rfl
  | finite s mantissa exponent => cases b with
    | infinity s' | zero s' => cases s <;> cases s' <;> rfl
    | notANumber => cases s <;> rfl
    | finite s' mantissa' exponent' =>
      -- two numbers of one sign are told apart by exponent, then by mantissa
      have swapped : (compare exponent' exponent).then (compare mantissa' mantissa) =
          ((compare exponent exponent').then (compare mantissa mantissa')).swap := by
        rw [Ordering.swap_then, Int.compare_swap, Nat.compare_swap]
      cases s <;> cases s'
      · exact congrArg (some ·.swap) swapped
      · rfl
      · rfl
      · exact congrArg some swapped

theorem compare_eq_none_iff (a b : UnpackedFloat) :
    a.compare b = none ↔ a.isNaN = true ∨ b.isNaN = true := by
  cases a with
  | notANumber => exact iff_of_true (by cases b <;> rfl) (.inl rfl)
  | infinity s | zero s | finite s => cases b with
    | notANumber => exact iff_of_true (by cases s <;> rfl) (.inr rfl)
    | infinity s' | zero s' | finite s' =>
      refine iff_of_false ?_ fun nan => nan.elim Bool.false_ne_true Bool.false_ne_true
      cases s <;> cases s' <;> exact Option.some_ne_none _

/-- Two doubles fail to be in order for one of two reasons. -/
theorem not_le_iff (p q : Float) : ¬ p ≤ q ↔ (p.isNaN = true ∨ q.isNaN = true) ∨ q < p := by
  have le : p ≤ q ↔ (p.toModel.unpack.compare q.toModel.unpack).any (·.isLE) = true :=
    decide_eq_true_iff
  have lt : q < p ↔ (q.toModel.unpack.compare p.toModel.unpack == some .lt) = true :=
    decide_eq_true_iff
  have nan : p.isNaN = true ∨ q.isNaN = true ↔ p.toModel.unpack.compare q.toModel.unpack = none :=
    (compare_eq_none_iff _ _).symm
  rw [nan, le, lt, compare_swap p.toModel.unpack]
  cases p.toModel.unpack.compare q.toModel.unpack with
  | none => simp
  | some order => cases order <;> decide

/-- Not a number, or one below zero or above one. -/
def OutOfRange (p : Float) : Prop := p.isNaN = true ∨ p < 0.0 ∨ 1.0 < p

theorem isProbability_eq_false_iff {p : Float} :
    Arithmetic.isProbability p = false ↔ OutOfRange p := by
  have zero : (0.0 : Float).isNaN = false := by decide
  have one : (1.0 : Float).isNaN = false := by decide
  show (decide (0.0 ≤ p) && decide (p ≤ 1.0)) = false ↔ _
  rw [Bool.and_eq_false_iff, decide_eq_false_iff_not, decide_eq_false_iff_not, not_le_iff,
    not_le_iff, zero, one, OutOfRange]
  simp only [Bool.false_eq_true, false_or, or_false]
  exact or_or_or_comm.trans (or_congr_left or_self_iff)

end Doubles

/-! ## The first variable -/

namespace Store

theorem findSome?_var?_cases (tuple : List Term) (start : Nat) :
    (((tuple.zipIdx start).findSome? fun (term, position) => term.var?.map (position, ·)) = none ∧
      ∀ term ∈ tuple, term.isGround = true) ∨
    ∃ before x after,
      ((tuple.zipIdx start).findSome? fun (term, position) => term.var?.map (position, ·)) =
        some (start + before.length, x) ∧
      tuple = before ++ .var x :: after ∧ ∀ term ∈ before, term.isGround = true := by
  induction tuple generalizing start with
  | nil => exact .inl ⟨rfl, by simp⟩
  | cons term later ih =>
    cases term with
    | var x => exact .inr ⟨[], x, later, rfl, rfl, by simp⟩
    | const c =>
      have isConst : (Term.const c).isGround = true := rfl
      rw [List.zipIdx_cons, List.findSome?_cons]
      obtain ⟨none, ground⟩ | ⟨before, x, after, found, rfl, ground⟩ := ih (start + 1)
      · exact .inl ⟨none, List.forall_mem_cons.2 ⟨isConst, ground⟩⟩
      · refine .inr ⟨.const c :: before, x, after, ?_, rfl, List.forall_mem_cons.2 ⟨isConst, ground⟩⟩
        rw [List.length_cons, Nat.add_comm before.length, ← Nat.add_assoc]
        exact found

/-- A tuple is all constants, or constants up to a first variable. -/
theorem firstVar?_cases (tuple : List Term) :
    (firstVar? tuple = none ∧ ∀ term ∈ tuple, term.isGround = true) ∨
    ∃ before x after, firstVar? tuple = some (before.length, x) ∧
      tuple = before ++ .var x :: after ∧ ∀ term ∈ before, term.isGround = true := by
  have counted := findSome?_var?_cases tuple 0
  simp only [Nat.zero_add] at counted
  exact counted

theorem firstVar?_eq_none_iff {tuple : List Term} :
    firstVar? tuple = none ↔ ∀ x, Term.var x ∉ tuple := by
  obtain ⟨noVar, ground⟩ | ⟨before, x, after, found, rfl, -⟩ := firstVar?_cases tuple
  · simp only [noVar, true_iff]
    intro x listed
    cases ground _ listed
  · simp only [found, reduceCtorEq, false_iff, not_forall, not_not]
    exact ⟨x, by simp⟩

end Store

/-! ## The keys of a table -/

namespace Relation

variable {P : Type} {rows : Relation P} {count more : Nat}

/-- The keys have the length of the arity and hold numbers below `count`. -/
def Filled (rows : Relation P) (count : Nat) : Prop :=
  ∀ key ∈ rows.tuples.keys, key.length = rows.arity ∧ ∀ id ∈ key, id.toNat < count

theorem filled_empty (arity count : Nat) : Filled (⟨arity, .empty⟩ : Relation P) count := by
  simp [Filled, Table.empty, Table.keys]

theorem Filled.mono (filled : rows.Filled count) (le : count ≤ more) : rows.Filled more := by
  intro key listed
  obtain ⟨length, given⟩ := filled key listed
  exact ⟨length, fun id within => Nat.lt_of_lt_of_le (given id within) le⟩

theorem Filled.insert (filled : rows.Filled count) {key : List UInt32}
    (fits : key.length = rows.arity) (given : ∀ id ∈ key, id.toNat < count) (p : P) :
    Filled ⟨rows.arity, rows.tuples.insert key p⟩ count := by
  intro other listed
  rcases Table.mem_keys_insert.1 listed with rfl | old
  · exact ⟨fits, given⟩
  · exact filled other old

end Relation

namespace InternedStore

/-! ## Adding in place -/

variable {P : Type}

/-- A computation that may fail and that writes to a store. What was written before a
failure stays written. -/
abbrev Update (P : Type) := EStateM (FactError P) (InternedStore P)

def refuseIf (c : Prop) [Decidable c] (complaint : FactError P) : Update P Unit :=
  if c then throw complaint else return

/-- The names of a tuple's constants; the first variable is a failure. -/
def readConstants (relation : Name) : Nat → List Term → Update P (List Name)
  | _, [] => return []
  | position, .const c :: later => do
    let names ← readConstants relation (position + 1) later
    return c :: names
  | position, .var x :: _ => throw (.nonGroundElement relation position x)

/-- The number of a constant, written to the interner if it is new. -/
def internInPlace (name : Name) : Update P UInt32 :=
  modifyGet fun s =>
    let (id, constants) := s.constants.intern name
    (id, { s with constants })

def extendDomain (name : Name) : Update P Unit :=
  modify fun s => { s with domain := NameSet.insert name s.domain }

/-- Put a probability at a key of a relation, which gets a table if it is new. -/
def recordInPlace (relation : Name) (key : List UInt32) (p : P) : Update P Unit :=
  modify fun s =>
    let rows := s.rows relation key.length
    { s with
      byRelation := s.byRelation.insert relation { rows with tuples := rows.tuples.insert key p } }

/-- Write a ground tuple to the interner, the domain and the table of its relation. -/
def writeInPlace (relation : Name) (names : List Name) (p : P) : Update P Unit := do
  let key ← names.mapM internInPlace
  names.forM extendDomain
  recordInPlace relation key p

/-- Add a fact, check by check and write by write. -/
def addInPlace [Arithmetic P] (relation : Name) (tuple : List Term) (p : P) : Update P Unit := do
  refuseIf (relation = "") .emptyRelation
  refuseIf (Arithmetic.isProbability p = false) (.probabilityOutOfRange relation p)
  let names ← readConstants relation 0 tuple
  let s ← get
  (s.arity? relation).forM fun arity =>
    refuseIf (arity ≠ names.length) (.arityMismatch relation arity names.length)
  writeInPlace relation names (Arithmetic.canonical p)

/-! ## The checks come first -/

section Running

variable (s : InternedStore P)

theorem run_refuseIf {α : Type} (c : Prop) [Decidable c] (complaint : FactError P)
    (next : Unit → Update P α) :
    (refuseIf c complaint >>= next).run s = if c then .error complaint s else (next ()).run s := by
  rw [refuseIf]
  split <;> rfl

theorem run_readConstants (relation : Name) (position : Nat) {tuple : List Term}
    (ground : ∀ term ∈ tuple, term.isGround = true) :
    (readConstants relation position tuple).run s = .ok (tuple.map Term.name) s := by
  induction tuple generalizing position with
  | nil => rfl
  | cons term later ih =>
    obtain ⟨here, others⟩ := List.forall_mem_cons.1 ground
    cases term with
    | var x => cases here
    | const c =>
      rw [readConstants, EStateM.run_bind, ih (position + 1) others]
      rfl

theorem run_readConstants_var (relation : Name) (position : Nat) {before after : List Term}
    {x : Name} (ground : ∀ term ∈ before, term.isGround = true) :
    (readConstants relation position (before ++ .var x :: after)).run s =
      .error (.nonGroundElement relation (position + before.length) x) s := by
  induction before generalizing position with
  | nil => rfl
  | cons term later ih =>
    obtain ⟨here, others⟩ := List.forall_mem_cons.1 ground
    cases term with
    | var x => cases here
    | const c =>
      rw [List.cons_append, readConstants, EStateM.run_bind, ih (position + 1) others,
        List.length_cons]
      show EStateM.Result.error _ s = .error _ s
      rw [Nat.add_assoc, Nat.add_comm 1]

theorem run_internInPlace (names : List Name) :
    (names.mapM internInPlace).run s =
      .ok (Interner.internAll names s.constants).1
        { s with constants := (Interner.internAll names s.constants).2 } := by
  induction names generalizing s with
  | nil => rfl
  | cons name later ih =>
    have here : (internInPlace name).run s = .ok (s.constants.intern name).1
        { s with constants := (s.constants.intern name).2 } := rfl
    rw [List.mapM_cons, EStateM.run_bind, here]
    show (later.mapM internInPlace >>= _ : Update P _).run _ = _
    rw [EStateM.run_bind, ih]
    rfl

theorem run_extendDomain (names : List Name) :
    (names.forM extendDomain).run s =
      .ok () { s with domain := names.foldl (fun set c => NameSet.insert c set) s.domain } := by
  induction names generalizing s with
  | nil => rfl
  | cons name later ih => exact ih _

theorem run_writeInPlace (relation : Name) (names : List Name) (p : P) :
    (writeInPlace relation names p).run s = .ok () (s.insert relation names p) := by
  rw [writeInPlace, EStateM.run_bind, run_internInPlace]
  show (names.forM extendDomain >>= fun _ => recordInPlace relation _ p : Update P Unit).run _ = _
  rw [EStateM.run_bind, run_extendDomain]
  rfl

end Running

/-- **Adding in place is all or nothing.** -/
theorem run_addInPlace [Arithmetic P] (s : InternedStore P) (relation : Name) (tuple : List Term)
    (p : P) :
    (addInPlace relation tuple p).run s =
      match s.add relation tuple p with
      | .ok added => .ok () added
      | .error complaint => .error complaint s := by
  unfold add Store.complaint? addInPlace
  rw [run_refuseIf]
  split
  · rfl
  rw [run_refuseIf]
  split
  · rfl
  rw [EStateM.run_bind]
  obtain ⟨noVar, ground⟩ | ⟨before, x, after, found, rfl, ground⟩ := Store.firstVar?_cases tuple
  · rw [noVar, run_readConstants s relation 0 ground]
    have length : (tuple.map Term.name).length = tuple.length := List.length_map _
    dsimp only
    rw [EStateM.run_bind, EStateM.run_get]
    dsimp only
    cases s.arity? relation with
    | none => exact run_writeInPlace s relation (tuple.map Term.name) (Arithmetic.canonical p)
    | some arity =>
      dsimp only [Option.forM]
      rw [run_refuseIf, length, ite_not]
      split
      · exact run_writeInPlace s relation (tuple.map Term.name) (Arithmetic.canonical p)
      · rfl
  · rw [found, run_readConstants_var s relation 0 ground, Nat.zero_add]

/-! ## Attempts in place -/

section Attempts

variable [Arithmetic P]

/-- The store that an attempt leaves, whatever becomes of it. -/
def attemptInPlace (s : InternedStore P) (a : Attempt P) : InternedStore P :=
  match (addInPlace a.relation a.tuple a.probability).run s with
  | .ok _ left => left
  | .error _ left => left

/-- The store after some attempts in place. -/
def inPlace (attempts : List (Attempt P)) : InternedStore P := attempts.foldl attemptInPlace empty

/-- The facts that the attempts on a store add, in order. -/
def accepted (s : InternedStore P) : List (Attempt P) → List Fact
  | [] => []
  | a :: later =>
    match (addInPlace a.relation a.tuple a.probability).run s with
    | .ok _ left => a.fact :: accepted left later
    | .error _ left => accepted left later

/-- What becomes of an attempt. -/
theorem run_addInPlace_cases (s : InternedStore P) (relation : Name) (tuple : List Term) (p : P) :
    (∃ complaint, Store.complaint? (s.arity? relation) relation tuple p = some complaint ∧
      (addInPlace relation tuple p).run s = .error complaint s) ∨
    (Store.complaint? (s.arity? relation) relation tuple p = none ∧
      (addInPlace relation tuple p).run s =
        .ok () (s.insert relation (tuple.map Term.name) (Arithmetic.canonical p))) := by
  rw [run_addInPlace, add]
  cases Store.complaint? (s.arity? relation) relation tuple p with
  | some complaint => exact .inl ⟨complaint, rfl, rfl⟩
  | none => exact .inr ⟨rfl, rfl⟩

/-- Changing one store in place leaves what handing on stores gives. -/
theorem inPlace_eq_run (attempts : List (Attempt P)) : inPlace attempts = (run attempts).1 := by
  have each : ∀ (s : InternedStore P) (a : Attempt P) (ledger : Ledger P),
      attemptInPlace s a = (attempt (s, ledger) a).1 := by
    intro s a ledger
    rw [attemptInPlace, attempt, run_addInPlace]
    dsimp only
    cases s.add a.relation a.tuple a.probability <;> rfl
  induction attempts using List.reverseRecOn with
  | nil => rfl
  | append_singleton attempts a ih =>
    rw [run_concat, inPlace, List.foldl_append, ← inPlace, ih]
    exact each _ a _

/-! ## The arity that is fixed -/

theorem length_internAll (i : Interner) (names : List Name) :
    (Interner.internAll names i).1.length = names.length :=
  (Interner.ids?_eq_some_iff.1 (Interner.ids?_internAll i names)).length_eq.symm

omit [Arithmetic P] in
theorem arity?_insert (s : InternedStore P) (relation : Name) (names : List Name) (p : P)
    (other : Name) : (s.insert relation names p).arity? other =
      if other = relation then some ((s.arity? relation).getD names.length)
      else s.arity? other := by
  rw [arity?, byRelation_insert, Table.get?_insert]
  split
  · rw [Option.map_some, length_internAll, rows, arity?]
    cases s.byRelation.get? relation <;> rfl
  · rfl

/-- A relation keeps its arity, or gets it from the first fact that is accepted. -/
theorem arity?_foldl (s : InternedStore P) (attempts : List (Attempt P)) (relation : Name) :
    (attempts.foldl attemptInPlace s).arity? relation = (s.arity? relation).or
      (((accepted s attempts).find? (·.relation = relation)).map (·.tuple.length)) := by
  induction attempts generalizing s with
  | nil => exact (Option.or_none ..).symm
  | cons a later ih =>
    rw [List.foldl_cons, ih, attemptInPlace, accepted]
    obtain ⟨complaint, -, refused⟩ | ⟨-, added⟩ :=
      run_addInPlace_cases s a.relation a.tuple a.probability
    · rw [refused]
    · rw [added]
      dsimp only
      rw [arity?_insert, List.find?_cons]
      by_cases same : relation = a.relation
      · subst same
        cases s.arity? a.relation <;> simp [Attempt.fact]
      · simp [same, Attempt.fact, Ne.symm same]

theorem arity?_inPlace (attempts : List (Attempt P)) (relation : Name) :
    (inPlace attempts).arity? relation =
      ((accepted empty attempts).find? (·.relation = relation)).map (·.tuple.length) :=
  (arity?_foldl empty attempts relation).trans (Option.none_or ..)

/-! ## The tuples that are held -/

end Attempts

/-- Every table has keys, all of its arity and with numbers that were given. This needs no
bound on the constants: a number that was given twice stands for one of them. -/
def Keyed (s : InternedStore P) : Prop :=
  ∀ relation rows, s.byRelation.get? relation = some rows →
    rows.tuples.keys ≠ [] ∧ rows.Filled s.constants.names.length

section Keyed

variable {s : InternedStore P} {relation : Name} {names : List Name}

theorem toNat_lt_of_mem_internAll {i : Interner} {id : UInt32}
    (given : id ∈ (Interner.internAll names i).1) :
    id.toNat < (Interner.internAll names i).2.names.length := by
  obtain ⟨name, -, known⟩ :=
    exists_input (Interner.ids?_eq_some_iff.1 (Interner.ids?_internAll i names)) given
  obtain ⟨place, stands, rfl⟩ := Interner.id?_eq_some_iff.1 known
  obtain ⟨within, -⟩ := List.getElem?_eq_some_iff.1 stands
  rw [UInt32.toNat_ofNat']
  exact Nat.lt_of_le_of_lt (Nat.mod_le _ _) within

theorem Keyed.insert (keyed : Keyed s) (p : P)
    (fits : ∀ rows, s.byRelation.get? relation = some rows → rows.arity = names.length) :
    Keyed (s.insert relation names p) := by
  have grown := Interner.length_le_internAll s.constants names
  have length := length_internAll s.constants names
  intro other rows found
  rw [byRelation_insert, Table.get?_insert] at found
  split at found
  · obtain rfl := Option.some.inj found
    have table : (s.rows relation (Interner.internAll names s.constants).1.length).Filled
          s.constants.names.length ∧
        (s.rows relation (Interner.internAll names s.constants).1.length).arity = names.length := by
      rw [InternedStore.rows]
      cases existing : s.byRelation.get? relation with
      | none => exact ⟨Relation.filled_empty _ _, length⟩
      | some before => exact ⟨(keyed relation before existing).2, fits before existing⟩
    exact ⟨List.ne_nil_of_mem (Table.mem_keys_insert.2 (.inl rfl)),
      (table.1.mono grown).insert (length.trans table.2.symm)
        (fun id => toNat_lt_of_mem_internAll) p⟩
  · exact (keyed other rows found).imp_right (·.mono grown)

theorem keyed_foldl [Arithmetic P] (keyed : Keyed s) (attempts : List (Attempt P)) :
    Keyed (attempts.foldl attemptInPlace s) := by
  induction attempts generalizing s with
  | nil => exact keyed
  | cons a later ih =>
    refine ih ?_
    rw [attemptInPlace]
    obtain ⟨complaint, -, refused⟩ | ⟨fine, added⟩ :=
      run_addInPlace_cases s a.relation a.tuple a.probability
    · rw [refused]
      exact keyed
    · rw [added]
      obtain ⟨-, -, -, fits⟩ := Store.complaint?_eq_none_iff.1 fine
      refine keyed.insert _ fun rows existing => ?_
      rw [List.length_map]
      exact fits rows.arity (by rw [arity?, existing]; rfl)

/-- What a relation holds has the length of its arity, and it holds something. -/
theorem Keyed.exists_length_iff (keyed : Keyed s) (n : Nat) :
    (∃ stored ∈ s.tuples relation, stored.1.length = n) ↔ s.arity? relation = some n := by
  rw [tuples, arity?]
  cases found : s.byRelation.get? relation with
  | none => simp
  | some rows =>
    obtain ⟨inhabited, filled⟩ := keyed relation rows found
    have length : ∀ key ∈ rows.tuples.keys, (s.resolve key).length = rows.arity := by
      intro key listed
      obtain ⟨fits, given⟩ := filled key listed
      rw [← fits, resolve, List.filterMap_length_eq_length]
      intro id within
      simpa [Interner.name?] using given id within
    rw [Option.map_some, Option.some.injEq]
    constructor
    · rintro ⟨stored, listed, rfl⟩
      obtain ⟨⟨key, p⟩, entry, rfl⟩ := List.mem_map.1 listed
      exact (length key (List.mem_map_of_mem entry)).symm
    · rintro rfl
      obtain ⟨key, listed⟩ := List.exists_mem_of_ne_nil _ inhabited
      obtain ⟨entry, listedEntry, rfl⟩ := List.mem_map.1 listed
      exact ⟨_, List.mem_map_of_mem listedEntry, length entry.1 listed⟩

end Keyed

/-! ## All or nothing -/

/-- What is first found wrong with a fact that is to be added after the accepted ones. -/
inductive FirstComplaint (accepted : List Fact) (relation : Name) (tuple : List Term) (p : Float) :
    FactError Float → Prop
  | emptyRelation (unnamed : relation = "") :
      FirstComplaint accepted relation tuple p .emptyRelation
  | outOfRange (named : relation ≠ "") (outside : OutOfRange p) :
      FirstComplaint accepted relation tuple p (.probabilityOutOfRange relation p)
  | variable {before after : List Term} {x : Name} (named : relation ≠ "")
      (inside : ¬ OutOfRange p) (stands : tuple = before ++ .var x :: after)
      (ground : ∀ term ∈ before, term.isGround = true) :
      FirstComplaint accepted relation tuple p (.nonGroundElement relation before.length x)
  | otherLength {first : Fact} (named : relation ≠ "") (inside : ¬ OutOfRange p)
      (ground : ∀ term ∈ tuple, term.isGround = true)
      (earliest : accepted.find? (·.relation = relation) = some first)
      (other : first.tuple.length ≠ tuple.length) :
      FirstComplaint accepted relation tuple p
        (.arityMismatch relation first.tuple.length tuple.length)

theorem firstComplaint_of_complaint? {accepted : List Fact} {relation : Name} {tuple : List Term}
    {p : Float} {complaint : FactError Float}
    (found : Store.complaint?
      ((accepted.find? (·.relation = relation)).map (·.tuple.length)) relation tuple p =
        some complaint) :
    FirstComplaint accepted relation tuple p complaint := by
  unfold Store.complaint? at found
  split at found <;> rename_i named
  · cases found
    exact .emptyRelation named
  split at found <;> rename_i range
  · cases found
    exact .outOfRange named (isProbability_eq_false_iff.1 range)
  have inside : ¬ OutOfRange p := mt isProbability_eq_false_iff.2 range
  obtain ⟨noVar, ground⟩ | ⟨before, x, after, first, rfl, ground⟩ := Store.firstVar?_cases tuple
  · rw [noVar] at found
    cases earliest : accepted.find? (·.relation = relation) with
    | none => simp [earliest] at found
    | some fact =>
      simp only [earliest, Option.map_some] at found
      split at found <;> rename_i length
      · cases found
      · cases found
        exact .otherLength named inside ground earliest length
  · rw [first] at found
    cases found
    exact .variable named inside rfl ground

theorem exists_complaint_iff {arity? : Option Nat} {relation : Name} {tuple : List Term} {p : Float} :
    (∃ complaint, Store.complaint? arity? relation tuple p = some complaint) ↔
      relation = "" ∨ OutOfRange p ∨ (∃ x, Term.var x ∈ tuple) ∨
        ∃ arity, arity? = some arity ∧ arity ≠ tuple.length := by
  rw [← Option.isSome_iff_exists, Option.isSome_iff_ne_none, ne_eq, Store.complaint?_eq_none_iff,
    Store.firstVar?_eq_none_iff, ← isProbability_eq_false_iff]
  grind

/-- **A refused fact leaves the store as it was, and the complaint is the first in a fixed
order.** After any attempts, an attempt in place fails exactly for a missing name, a
probability that is none, a variable, or another length than what the relation holds. The
store that a failure leaves is the one before: tables, arities, numbers of constants and
domain. A success leaves it with the fact. -/
theorem addInPlace_allOrNothing (attempts : List (Attempt Float)) (relation : Name)
    (tuple : List Term) (p : Float) :
    ((∃ complaint left,
        (addInPlace relation tuple p).run (inPlace attempts) = .error complaint left) ↔
      relation = "" ∨ OutOfRange p ∨ (∃ x, Term.var x ∈ tuple) ∨
        ∃ stored ∈ (inPlace attempts).tuples relation, stored.1.length ≠ tuple.length) ∧
    match (addInPlace relation tuple p).run (inPlace attempts) with
    | .error complaint left =>
      left = inPlace attempts ∧ FirstComplaint (accepted empty attempts) relation tuple p complaint
    | .ok _ left =>
      left = (inPlace attempts).insert relation (tuple.map Term.name) (Arithmetic.canonical p) := by
  have keyed : Keyed (inPlace attempts) := keyed_foldl (by intro _ _ found; cases found) attempts
  have otherLength : (∃ stored ∈ (inPlace attempts).tuples relation,
        stored.1.length ≠ tuple.length) ↔
      ∃ arity, (inPlace attempts).arity? relation = some arity ∧ arity ≠ tuple.length := by
    simp only [← keyed.exists_length_iff]
    constructor
    · rintro ⟨stored, listed, other⟩
      exact ⟨_, ⟨stored, listed, rfl⟩, other⟩
    · rintro ⟨_, ⟨stored, listed, rfl⟩, other⟩
      exact ⟨stored, listed, other⟩
  rw [otherLength, ← exists_complaint_iff]
  obtain ⟨complaint, found, refused⟩ | ⟨fine, added⟩ :=
    run_addInPlace_cases (inPlace attempts) relation tuple p
  · rw [refused, found]
    rw [arity?_inPlace] at found
    exact ⟨by simp, rfl, firstComplaint_of_complaint? found⟩
  · rw [added, fine]
    exact ⟨by simp, rfl⟩

/-- The number is looked at before the variable, and neither leaves a trace. -/
example : (inPlace [⟨"R", [.const "a", .var "x"], 0.0 / 0.0⟩, ⟨"R", [.const "b", .var "x"], 0.5⟩,
    ⟨"R", [.const "c"], 0.5⟩, ⟨"R", [.const "d", .const "e"], (0.5 : Float)⟩]).domain = ["c"] := by
  decide +kernel

end InternedStore

end SafePlan
