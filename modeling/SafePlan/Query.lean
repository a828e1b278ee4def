/-
# SafePlan.Query — conjunctive queries in which no relation repeats

A query declares variables and joins atoms: it asks whether some choice of
constants for the variables makes every atom a fact. `Query.Valid` lists what
makes declarations and atoms fit together; every query carries it, and
`Query.make` is the way to get one from lists that may not fit. What it
refuses is the first fault met in reading order: the declarations, then the
atoms from left to right, in each its relation before its terms.
-/
import SafePlan.Atom

set_option autoImplicit false

namespace SafePlan

inductive QueryError where
  | duplicateVariable (x : Name)
  | freeVariable (x relation : Name)
  | repeatedRelation (relation : Name)
  | shadowedConstant (c : Name)
  | emptyRelation
  deriving DecidableEq, Repr

namespace QueryError

def message : QueryError → String
  | .duplicateVariable x => "variable `" ++ x ++ "` is declared more than once"
  | .freeVariable x relation =>
    "variable `" ++ x ++ "` in `" ++ relation ++ "` is not declared"
  | .repeatedRelation relation =>
    "relation `" ++ relation ++ "` appears in more than one atom"
  | .shadowedConstant c =>
    "constant `" ++ c ++ "` has the same name as a declared variable"
  | .emptyRelation => "relation name must not be empty"

end QueryError

namespace Query

/-- Declarations and atoms that fit together. A relation in at most one atom is
what keeps the atoms' facts apart; a constant unlike every variable is what
lets a name alone decide between the two in written queries. -/
structure Valid (vars : List Name) (atoms : List Atom) : Prop where
  declaredOnce : vars.Nodup
  named : ∀ a ∈ atoms, a.relation ≠ ""
  unrepeated : (atoms.map Atom.relation).Nodup
  declared : ∀ a ∈ atoms, ∀ x, Term.var x ∈ a.terms → x ∈ vars
  unshadowed : ∀ a ∈ atoms, ∀ c, Term.const c ∈ a.terms → c ∉ vars

/-- The first name that stands among the names before it or in `seen`. -/
def firstRepeat (seen : List Name) : List Name → Option Name
  | [] => none
  | x :: rest => if x ∈ seen then some x else firstRepeat (x :: seen) rest

def termFault? (vars : List Name) (relation : Name) : Term → Option QueryError
  | .var x => if x ∈ vars then none else some (.freeVariable x relation)
  | .const c => if c ∈ vars then some (.shadowedConstant c) else none

def atomFault? (vars seen : List Name) (a : Atom) : Option QueryError :=
  if a.relation = "" then some .emptyRelation
  else if a.relation ∈ seen then some (.repeatedRelation a.relation)
  else a.terms.findSome? (termFault? vars a.relation)

/-- The first fault of the atoms, after relations `seen` in earlier ones. -/
def atomsFault? (vars : List Name) (seen : List Name) : List Atom → Option QueryError
  | [] => none
  | a :: rest => (atomFault? vars seen a).or (atomsFault? vars (a.relation :: seen) rest)

/-- The first fault in reading order. -/
def fault? (vars : List Name) (atoms : List Atom) : Option QueryError :=
  ((firstRepeat [] vars).map .duplicateVariable).or (atomsFault? vars [] atoms)

/-! ## What the absence of faults says -/

theorem firstRepeat_eq_none_iff {seen names : List Name} :
    firstRepeat seen names = none ↔ names.Nodup ∧ ∀ x ∈ names, x ∉ seen := by
  induction names generalizing seen with
  | nil => simp [firstRepeat]
  | cons x rest ih =>
    rw [firstRepeat]
    split
    · simp_all
    · rw [ih, List.nodup_cons]
      grind

theorem termFault?_eq_none_iff {vars : List Name} {relation : Name} {term : Term} :
    termFault? vars relation term = none ↔
      (∀ x, term = .var x → x ∈ vars) ∧ ∀ c, term = .const c → c ∉ vars := by
  cases term <;> simp [termFault?]

theorem atomFault?_eq_none_iff {vars seen : List Name} {a : Atom} :
    atomFault? vars seen a = none ↔
      a.relation ≠ "" ∧ a.relation ∉ seen ∧
        (∀ x, Term.var x ∈ a.terms → x ∈ vars) ∧
        ∀ c, Term.const c ∈ a.terms → c ∉ vars := by
  rw [atomFault?]
  split
  · simp_all
  · split
    · simp_all
    · simp only [List.findSome?_eq_none_iff, termFault?_eq_none_iff]
      grind

theorem atomsFault?_eq_none_iff {vars seen : List Name} {atoms : List Atom} :
    atomsFault? vars seen atoms = none ↔
      (∀ a ∈ atoms, a.relation ≠ "") ∧
      ((atoms.map Atom.relation).Nodup ∧ ∀ a ∈ atoms, a.relation ∉ seen) ∧
      (∀ a ∈ atoms, ∀ x, Term.var x ∈ a.terms → x ∈ vars) ∧
      ∀ a ∈ atoms, ∀ c, Term.const c ∈ a.terms → c ∉ vars := by
  induction atoms generalizing seen with
  | nil => simp [atomsFault?]
  | cons a rest ih =>
    rw [atomsFault?, Option.or_eq_none_iff, atomFault?_eq_none_iff, ih, List.map_cons,
      List.nodup_cons]
    simp only [List.mem_cons, List.mem_map]
    grind

/-- **No fault is found exactly when declarations and atoms fit together.** -/
theorem fault?_eq_none_iff {vars : List Name} {atoms : List Atom} :
    fault? vars atoms = none ↔ Valid vars atoms := by
  rw [fault?, Option.or_eq_none_iff, Option.map_eq_none_iff, firstRepeat_eq_none_iff,
    atomsFault?_eq_none_iff]
  constructor
  · rintro ⟨⟨once, -⟩, named, ⟨unrepeated, -⟩, declared, unshadowed⟩
    exact ⟨once, named, unrepeated, declared, unshadowed⟩
  · rintro ⟨once, named, unrepeated, declared, unshadowed⟩
    exact ⟨⟨once, by simp⟩, named, ⟨unrepeated, by simp⟩, declared, unshadowed⟩

end Query

/-- `∃ vars. a₁ ∧ … ∧ aₙ`. Declared variables need not occur, and there may be
no atoms at all. -/
structure Query where
  vars : List Name
  atoms : List Atom
  valid : Query.Valid vars atoms
  deriving DecidableEq

namespace Query

/-- The query of the given lists, or their first fault. -/
def make (vars : List Name) (atoms : List Atom) : Except QueryError Query :=
  match faultless : fault? vars atoms with
  | some fault => .error fault
  | none => .ok ⟨vars, atoms, fault?_eq_none_iff.1 faultless⟩

theorem make_eq_ok (q : Query) : make q.vars q.atoms = .ok q := by
  unfold make
  split <;> rename_i found
  · rw [fault?_eq_none_iff.2 q.valid] at found
    cases found
  · rfl

theorem lists_of_make {vars : List Name} {atoms : List Atom} {q : Query}
    (made : make vars atoms = .ok q) : q.vars = vars ∧ q.atoms = atoms := by
  unfold make at made
  split at made
  · cases made
  · cases made
    exact ⟨rfl, rfl⟩

/-- A query that declares no variables. -/
def ground (atoms : List Atom) : Except QueryError Query := make [] atoms

/-- The relations, in the order of their atoms. -/
def relations (q : Query) : List Name := q.atoms.map Atom.relation

/-- The names that some atom mentions, in the order given. -/
def occurring (vars : List Name) (atoms : List Atom) : List Name :=
  vars.filter fun x => atoms.any (·.mentions x)

/-- The declared variables that occur in atoms, in the order of declaration. -/
def occurringVars (q : Query) : List Name := occurring q.vars q.atoms

def isGround (q : Query) : Bool := q.atoms.all Atom.isGround

/-- The logical form of quantified variables over joined atoms. -/
def displayOf (vars : List Name) (atoms : List Atom) : String :=
  String.join (vars.map fun x => "∃" ++ x ++ " ") ++
    if atoms.isEmpty then "true" else " ∧ ".intercalate (atoms.map Atom.display)

def display (q : Query) : String := displayOf q.vars q.atoms

end Query

end SafePlan
