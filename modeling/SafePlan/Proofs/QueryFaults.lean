/-
# SafePlan.Proofs.QueryFaults — which lists make a query, and what is wrong with the others

`Query.make` looks for faults with two scans that stop at the first one. What a scan
holds when it stops is a cut of its list: everything before the cut is in order, and
the fault is right behind it (`firstRepeat_eq_some_iff`, `atomsFault?_eq_some_iff`).
`FirstFault` says so without the scans, and the refused lists are exactly those with
a first fault (`make_eq_error_iff`).

The lists need not be given as such: a text has them written, a JSON value holds them.
Whatever the source, `make` decides about its lists (`Source.query?_of_has`), so there is
no way around the five conditions of `Query.Valid`.
-/
import SafePlan.Proofs.JsonForms
import SafePlan.Proofs.QueryGrammar

set_option autoImplicit false

namespace SafePlan

namespace Query

variable {vars : List Name} {atoms : List Atom}

/-! ## Faults and where they are -/

/-- A variable is declared, and a constant is not spelled like one that is. -/
def Fits (vars : List Name) : Term → Prop
  | .var x => x ∈ vars
  | .const c => c ∉ vars

/-- The fault of an atom behind others. Its name is looked at before its terms, and of
these the first that does not fit counts. -/
inductive AtomFault (vars : List Name) (earlier : List Atom) (a : Atom) : QueryError → Prop
  | unnamed (empty : a.relation = "") : AtomFault vars earlier a .emptyRelation
  | repeated (named : a.relation ≠ "") (again : a.relation ∈ earlier.map Atom.relation) :
      AtomFault vars earlier a (.repeatedRelation a.relation)
  | undeclared {before after : List Term} {x : Name} (named : a.relation ≠ "")
      (new : a.relation ∉ earlier.map Atom.relation) (terms : a.terms = before ++ .var x :: after)
      (fit : ∀ term ∈ before, Fits vars term) (missing : x ∉ vars) :
      AtomFault vars earlier a (.freeVariable x a.relation)
  | shadowed {before after : List Term} {c : Name} (named : a.relation ≠ "")
      (new : a.relation ∉ earlier.map Atom.relation) (terms : a.terms = before ++ .const c :: after)
      (fit : ∀ term ∈ before, Fits vars term) (present : c ∈ vars) :
      AtomFault vars earlier a (.shadowedConstant c)

/-- The first fault of two lists: a variable that is declared again, with no such variable
before it, or else the fault of an atom, with nothing wrong before it. -/
inductive FirstFault (vars : List Name) (atoms : List Atom) : QueryError → Prop
  | duplicate {before after : List Name} {x : Name} (declared : vars = before ++ x :: after)
      (once : before.Nodup) (again : x ∈ before) : FirstFault vars atoms (.duplicateVariable x)
  | atom {before after : List Atom} {a : Atom} {fault : QueryError}
      (joined : atoms = before ++ a :: after) (fit : Valid vars before)
      (here : AtomFault vars before a fault) : FirstFault vars atoms fault

/-! ## The scans -/

/-- The scan of names holds those before the one it stops at, last first. -/
theorem firstRepeat_eq_some_iff {seen names : List Name} {x : Name} :
    firstRepeat seen names = some x ↔ ∃ before after, names = before ++ x :: after ∧
      firstRepeat seen before = none ∧ x ∈ before.reverse ++ seen := by
  induction names generalizing seen with
  | nil => simp [firstRepeat]
  | cons y later ih =>
    constructor
    · intro found
      rw [firstRepeat] at found
      split at found <;> rename_i earlier
      · cases found
        exact ⟨[], later, rfl, rfl, earlier⟩
      · obtain ⟨before, after, rfl, once, again⟩ := ih.1 found
        exact ⟨y :: before, after, rfl, by rw [firstRepeat, if_neg earlier, once],
          by simpa using again⟩
    · rintro ⟨before, after, cut, once, again⟩
      cases before with
      | nil =>
        cases cut
        exact if_pos again
      | cons z before =>
        cases cut
        rw [firstRepeat] at once ⊢
        split at once <;> rename_i earlier
        · cases once
        · rw [if_neg earlier]
          exact ih.2 ⟨before, after, rfl, once, by simpa using again⟩

theorem termFault?_eq_none_iff_fits {relation : Name} {term : Term} :
    termFault? vars relation term = none ↔ Fits vars term := by
  cases term <;> simp [termFault?, Fits]

theorem atomFault?_eq_some_iff {earlier : List Atom} {seen : List Name} {a : Atom}
    {fault : QueryError} (same : ∀ name, name ∈ seen ↔ name ∈ earlier.map Atom.relation) :
    atomFault? vars seen a = some fault ↔ AtomFault vars earlier a fault := by
  rw [atomFault?]
  split
  · rename_i empty
    constructor
    · intro found
      cases found
      exact .unnamed empty
    · rintro (_ | named | named | named)
      · rfl
      all_goals exact absurd empty named
  rename_i named
  split
  · rename_i repeated
    constructor
    · intro found
      cases found
      exact .repeated named ((same _).1 repeated)
    · rintro (empty | _ | ⟨_, new⟩ | ⟨_, new⟩)
      · exact absurd empty named
      · rfl
      all_goals exact absurd ((same _).1 repeated) new
  rename_i new
  rw [List.findSome?_eq_some_iff]
  simp only [termFault?_eq_none_iff_fits]
  constructor
  · rintro ⟨before, term, after, cut, found, fit⟩
    have new' := mt (same _).2 new
    cases term with
    | var x =>
      obtain ⟨missing, rfl⟩ := by simpa [termFault?] using found
      exact .undeclared named new' cut fit missing
    | const c =>
      obtain ⟨present, rfl⟩ := by simpa [termFault?] using found
      exact .shadowed named new' cut fit present
  · rintro (empty | ⟨_, again⟩ | ⟨_, _, cut, fit, missing⟩ | ⟨_, _, cut, fit, present⟩)
    · exact absurd empty named
    · exact absurd ((same _).2 again) new
    · exact ⟨_, _, _, cut, by simp [termFault?, missing], fit⟩
    · exact ⟨_, _, _, cut, by simp [termFault?, present], fit⟩

/-- The scan of atoms holds the relations before the one it stops at, last first. -/
theorem atomsFault?_eq_some_iff {seen : List Name} {fault : QueryError} :
    atomsFault? vars seen atoms = some fault ↔ ∃ before a after, atoms = before ++ a :: after ∧
      atomsFault? vars seen before = none ∧
      atomFault? vars ((before.map Atom.relation).reverse ++ seen) a = some fault := by
  induction atoms generalizing seen with
  | nil => simp [atomsFault?]
  | cons a later ih =>
    rw [atomsFault?, Option.or_eq_some_iff, ih]
    constructor
    · rintro (found | ⟨none, before, b, after, rfl, faultless, found⟩)
      · exact ⟨[], a, later, rfl, rfl, found⟩
      · exact ⟨a :: before, b, after, rfl, by rw [atomsFault?, none, faultless]; rfl,
          by simpa using found⟩
    · rintro ⟨before, b, after, cut, faultless, found⟩
      cases before with
      | nil =>
        cases cut
        exact .inl found
      | cons c before =>
        cases cut
        obtain ⟨none, faultless⟩ := Option.or_eq_none_iff.1 faultless
        exact .inr ⟨none, before, b, after, rfl, faultless, by simpa using found⟩

/-- Without a repeated declaration, the atoms are in order when the two lists are. -/
theorem atomsFault?_eq_none_iff_valid (once : vars.Nodup) :
    atomsFault? vars [] atoms = none ↔ Valid vars atoms := by
  have unrepeated : firstRepeat [] vars = none := firstRepeat_eq_none_iff.2 ⟨once, by simp⟩
  rw [← fault?_eq_none_iff, fault?, unrepeated, Option.map_none, Option.none_or]

theorem fault?_eq_some_iff {fault : QueryError} :
    fault? vars atoms = some fault ↔ FirstFault vars atoms fault := by
  rw [fault?, Option.or_eq_some_iff, Option.map_eq_some_iff, Option.map_eq_none_iff]
  constructor
  · rintro (⟨x, found, rfl⟩ | ⟨none, found⟩)
    · obtain ⟨before, after, cut, unrepeated, again⟩ := firstRepeat_eq_some_iff.1 found
      obtain ⟨once, -⟩ := firstRepeat_eq_none_iff.1 unrepeated
      exact .duplicate cut once (by simpa using again)
    · obtain ⟨once, -⟩ := firstRepeat_eq_none_iff.1 none
      obtain ⟨before, a, after, cut, faultless, found⟩ := atomsFault?_eq_some_iff.1 found
      refine .atom cut ((atomsFault?_eq_none_iff_valid once).1 faultless) ?_
      exact (atomFault?_eq_some_iff (by simp)).1 found
  · rintro (⟨cut, once, again⟩ | ⟨cut, fit, here⟩)
    · have unrepeated := firstRepeat_eq_none_iff.2 ⟨once, fun y _ => List.not_mem_nil⟩
      exact .inl ⟨_, firstRepeat_eq_some_iff.2 ⟨_, _, cut, unrepeated, by simpa using again⟩, rfl⟩
    · refine .inr ⟨firstRepeat_eq_none_iff.2 ⟨fit.declaredOnce, by simp⟩, ?_⟩
      refine atomsFault?_eq_some_iff.2 ⟨_, _, _, cut, ?_, ?_⟩
      · exact (atomsFault?_eq_none_iff_valid fit.declaredOnce).2 fit
      · exact (atomFault?_eq_some_iff (by simp)).2 here

/-! ## The lists that are accepted, and the others -/

theorem make_eq_error_iff {fault : QueryError} :
    make vars atoms = .error fault ↔ FirstFault vars atoms fault := by
  rw [← fault?_eq_some_iff]
  unfold make
  split <;> rename_i found <;> simp [found]

theorem exists_make_iff : (∃ q, make vars atoms = .ok q) ↔ Valid vars atoms := by
  constructor
  · rintro ⟨q, made⟩
    obtain ⟨rfl, rfl⟩ := lists_of_make made
    exact q.valid
  · intro valid
    exact ⟨_, make_eq_ok ⟨vars, atoms, valid⟩⟩

/-! ## Where the lists come from -/

/-- What a query can be made from. -/
inductive Source where
  | lists (vars : List Name) (atoms : List Atom)
  | ground (atoms : List Atom)
  | text (written : String)
  | json (form : Json)

namespace Source

def query? : Source → Option Query
  | .lists vars atoms => (make vars atoms).toOption
  | .ground atoms => (Query.ground atoms).toOption
  | .text written => (parse written).toOption
  | .json form => ofJson? form

/-- The lists of a source, whether or not they make a query. -/
inductive Has : Source → List Name → List Atom → Prop
  | lists {vars : List Name} {atoms : List Atom} : Has (.lists vars atoms) vars atoms
  | ground {atoms : List Atom} : Has (.ground atoms) [] atoms
  | text {written : String} {raw : Text.RawQuery} (derived : Text.QueryText raw written.toList) :
      Has (.text written) raw.vars (raw.atoms.map (RawAtom.resolve raw.vars))
  | json {form : Json} {vars : List Name} {atoms : List Atom} (lists : Lists vars atoms form) :
      Has (.json form) vars atoms

/-- **No source has a way around the checks.** -/
theorem query?_of_has {source : Source} (has : source.Has vars atoms) :
    source.query? = (make vars atoms).toOption := by
  cases has with
  | lists => rfl
  | ground => rfl
  | @text written raw derived =>
    rw [query?, parse_of_queryText derived]
    cases make raw.vars (raw.atoms.map (RawAtom.resolve raw.vars)) <;> rfl
  | json lists => exact ofJson?_of_lists lists

theorem has_of_query? {source : Source} {q : Query} (built : source.query? = some q) :
    source.Has q.vars q.atoms := by
  have keeps {vars : List Name} {atoms : List Atom} (made : (make vars atoms).toOption = some q) :
      vars = q.vars ∧ atoms = q.atoms := by
    obtain ⟨rfl, rfl⟩ := lists_of_make (toOption_eq_some_iff.1 made)
    exact ⟨rfl, rfl⟩
  cases source with
  | lists vars atoms =>
    obtain ⟨rfl, rfl⟩ := keeps built
    exact .lists
  | ground atoms =>
    obtain ⟨none, rfl⟩ := keeps built
    rw [← none]
    exact .ground
  | text written =>
    by_cases derivable : ∃ raw, Text.QueryText raw written.toList
    · obtain ⟨raw, derived⟩ := derivable
      rw [query?_of_has (.text derived)] at built
      obtain ⟨vars, atoms⟩ := keeps built
      rw [← vars, ← atoms]
      exact .text derived
    · have refused := parse_of_not_queryText (not_exists.1 derivable)
      rcases refused with refused | ⟨_, refused⟩ | ⟨_, refused⟩ | ⟨_, _, refused⟩ <;>
        simp [query?, refused, Except.toOption] at built
  | json form => exact .json (lists_of_ofJson? built)

end Source

/-- **Lists make a query when the five conditions hold, and otherwise their first fault
is reported.** A query keeps the lists, and one from any source meets the conditions
because the lists of its source do. -/
theorem make_eq_firstFault :
    (∀ vars atoms, (∃ q, make vars atoms = .ok q) ↔ Valid vars atoms) ∧
    (∀ vars atoms q, make vars atoms = .ok q → q.vars = vars ∧ q.atoms = atoms) ∧
    (∀ vars atoms fault, make vars atoms = .error fault ↔ FirstFault vars atoms fault) ∧
    ∀ (source : Source) (q : Query), source.query? = some q →
      source.Has q.vars q.atoms ∧ Valid q.vars q.atoms := by
  refine ⟨fun vars atoms => exists_make_iff, fun vars atoms q => lists_of_make,
    fun vars atoms fault => make_eq_error_iff, fun source q built => ?_⟩
  have has := Source.has_of_query? built
  refine ⟨has, exists_make_iff.1 ⟨q, ?_⟩⟩
  rw [Source.query?_of_has has] at built
  exact toOption_eq_some_iff.1 built

/-- Of an atom's faults the one in front is reported. -/
example : fault? ["x"] [⟨"R", [.var "x"]⟩, ⟨"R", [.var "y", .const "x"]⟩] =
    some (.repeatedRelation "R") := by
  decide

end Query

end SafePlan
