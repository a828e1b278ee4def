/-
# SafePlan.Store — facts and their probabilities

A store keeps finitely many facts, each with a probability: the facts are
present independently of each other, and a fact that is not kept is certainly
absent. Adding a fact again replaces its probability.

The facts of one relation have one length, fixed by the first of them. What is
added is checked first, in a fixed order of complaints (`fault?`): the name of
the relation, the probability, the elements of the tuple, its length. What
fails a check leaves no trace, since `add` then returns no store at all.

The constants of kept facts are the active domain, over which quantifiers range.
-/
import SafePlan.Arithmetic
import SafePlan.Atom
import SafePlan.Table

set_option autoImplicit false

namespace SafePlan

inductive FactError (P : Type) where
  | emptyRelation
  | probabilityOutOfRange (relation : Name) (probability : P)
  | nonGroundElement (relation : Name) (position : Nat) (x : Name)
  | arityMismatch (relation : Name) (expected found : Nat)

/-- Facts with probabilities. Every fact stands once and has a named relation,
facts of one relation have one length, and every probability is one that was
found to be a probability and made canonical. -/
structure Store (P : Type) [Arithmetic P] where
  entries : List (Fact × P)
  distinct : (entries.map Prod.fst).Nodup
  named : ∀ entry ∈ entries, entry.1.relation ≠ ""
  uniform : ∀ entry ∈ entries, ∀ other ∈ entries, entry.1.relation = other.1.relation →
    entry.1.tuple.length = other.1.tuple.length
  probable : ∀ entry ∈ entries, ∃ p,
    Arithmetic.isProbability p = true ∧ entry.2 = Arithmetic.canonical p

namespace Store

variable {P : Type} [Arithmetic P]

def empty : Store P := ⟨[], by simp, by simp, by simp, by simp⟩

/-! ## Reading -/

/-- The probability that a fact is present. -/
def chance (s : Store P) (fact : Fact) : P :=
  match s.entries.find? (·.1 = fact) with
  | some entry => entry.2
  | none => Arithmetic.zero

def lookup (s : Store P) (relation : Name) (tuple : List Name) : P := s.chance ⟨relation, tuple⟩

/-- The length of the relation's tuples, once there is one. -/
def arity? (s : Store P) (relation : Name) : Option Nat :=
  (s.entries.find? (·.1.relation = relation)).map (·.1.tuple.length)

/-- The active domain. -/
def domain (s : Store P) : NameSet := NameSet.ofList (s.entries.flatMap (·.1.tuple))

/-! ## Adding -/

/-- The first variable of a tuple and its position. -/
def firstVar? (tuple : List Term) : Option (Nat × Name) :=
  tuple.zipIdx.findSome? fun (term, position) => term.var?.map (position, ·)

/-- The first complaint about what is to be added to a relation of the given arity. -/
def complaint? (arity? : Option Nat) (relation : Name) (tuple : List Term) (p : P) :
    Option (FactError P) :=
  if relation = "" then some .emptyRelation
  else if Arithmetic.isProbability p = false then some (.probabilityOutOfRange relation p)
  else match firstVar? tuple with
    | some (position, x) => some (.nonGroundElement relation position x)
    | none =>
      match arity? with
      | none => none
      | some arity =>
        if arity = tuple.length then none else some (.arityMismatch relation arity tuple.length)

theorem complaint?_eq_none_iff {arity? : Option Nat} {relation : Name} {tuple : List Term} {p : P} :
    complaint? arity? relation tuple p = none ↔
      relation ≠ "" ∧ Arithmetic.isProbability p = true ∧ firstVar? tuple = none ∧
        ∀ arity, arity? = some arity → arity = tuple.length := by
  unfold complaint?
  split <;> rename_i named
  · simp [named]
  · split <;> rename_i probable
    · simp [probable]
    · cases firstVar? tuple <;> cases arity? <;> simp [named, probable]

def fault? (s : Store P) (relation : Name) (tuple : List Term) (p : P) : Option (FactError P) :=
  complaint? (s.arity? relation) relation tuple p

theorem uniform_of_fault?_eq_none {s : Store P} {relation : Name} {tuple : List Term} {p : P}
    (faultless : s.fault? relation tuple p = none) {entry : Fact × P} (kept : entry ∈ s.entries)
    (same : entry.1.relation = relation) : entry.1.tuple.length = tuple.length := by
  obtain ⟨-, -, -, fits⟩ := complaint?_eq_none_iff.1 faultless
  cases found : s.entries.find? (·.1.relation = relation) with
  | none =>
    have := List.find?_eq_none.1 found entry kept
    simp_all
  | some first =>
    have related : first.1.relation = relation := by
      simpa using List.find?_some found
    rw [← fits first.1.tuple.length (by rw [arity?, found]; rfl)]
    exact s.uniform entry kept first (List.mem_of_find?_eq_some found) (by rw [same, related])

/-- The store with a fact at a probability that passed the checks. -/
def insert (s : Store P) (relation : Name) (tuple : List Term) (p : P)
    (faultless : s.fault? relation tuple p = none) : Store P where
  entries := record ⟨relation, tuple.map Term.name⟩ (Arithmetic.canonical p) s.entries
  distinct := nodup_record s.distinct
  named entry listed := by
    rcases mem_record listed with rfl | kept
    · exact (complaint?_eq_none_iff.1 faultless).1
    · exact s.named entry kept
  uniform entry listed other listed' same := by
    rcases mem_record listed with rfl | kept <;> rcases mem_record listed' with rfl | kept'
    · rfl
    · simpa using (uniform_of_fault?_eq_none faultless kept' same.symm).symm
    · simpa using uniform_of_fault?_eq_none faultless kept same
    · exact s.uniform entry kept other kept' same
  probable entry listed := by
    rcases mem_record listed with rfl | kept
    · exact ⟨p, (complaint?_eq_none_iff.1 faultless).2.1, rfl⟩
    · exact s.probable entry kept

/-- Add a fact or replace its probability, unless there is a complaint. -/
def add (s : Store P) (relation : Name) (tuple : List Term) (p : P) :
    Except (FactError P) (Store P) :=
  match faultless : s.fault? relation tuple p with
  | some fault => .error fault
  | none => .ok (s.insert relation tuple p faultless)

end Store

end SafePlan
