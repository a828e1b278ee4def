/-
# SafePlan.InternedStore — a store as it is laid out

The facts of a store are kept by relation, and in a relation by the numbers of
their constants: each relation has a table from tuples of numbers to
probabilities, and the arity that its first tuple fixed. The constants and their
numbers are in one interner for all relations. The active domain is kept too,
as constants by name, and grows with every fact that is added.

Reading goes through the numbers. A tuple with a constant that has none is not
stored; a number that stands for no constant is left out of what is listed. A
store that was only filled by `add` holds no such number. What a query or formula
reads of it, probabilities and the active domain, is then what a `Store` with the
same facts says (`SafePlan.Proofs.Agreement`); its lists are those of the facts
added (`SafePlan.Proofs.Ledger`).
-/
import SafePlan.Interner
import SafePlan.Store

set_option autoImplicit false

namespace SafePlan

structure Relation (P : Type) where
  arity : Nat
  tuples : Table (List UInt32) P

structure InternedStore (P : Type) where
  byRelation : Table Name (Relation P)
  constants : Interner
  domain : NameSet

namespace InternedStore

variable {P : Type}

def empty : InternedStore P := ⟨.empty, .empty, []⟩

/-! ## Reading -/

section Reading

variable (s : InternedStore P)

def arity? (relation : Name) : Option Nat := (s.byRelation.get? relation).map Relation.arity

/-- The names of the constants with the given numbers. -/
def resolve (ids : List UInt32) : List Name := ids.filterMap s.constants.name?

/-- The tuples of a relation with their probabilities. -/
def tuples (relation : Name) : List (List Name × P) :=
  match s.byRelation.get? relation with
  | none => []
  | some rows => rows.tuples.entries.map fun (key, p) => (s.resolve key, p)

/-- The constants in one column of a relation. -/
def valuesAt (relation : Name) (position : Nat) : NameSet :=
  match s.byRelation.get? relation with
  | none => []
  | some rows => NameSet.ofList (s.resolve (rows.tuples.keys.filterMap (·[position]?)))

/-- The relations in increasing order. -/
def relations : List Name := s.byRelation.keys.mergeSort (decide <| · ≤ ·)

/-- The number of facts. -/
def size : Nat :=
  s.byRelation.entries.foldr (fun (_, rows) others => rows.tuples.size + others) 0

def isEmpty : Bool := s.size == 0

variable [Arithmetic P]

/-- The probability of a fact, zero unless it is stored. -/
def lookup (relation : Name) (tuple : List Name) : P :=
  match s.byRelation.get? relation with
  | none => Arithmetic.zero
  | some rows =>
    if rows.arity = tuple.length then
      match s.constants.ids? tuple with
      | none => Arithmetic.zero
      | some key => (rows.tuples.get? key).getD Arithmetic.zero
    else Arithmetic.zero

end Reading

/-! ## Adding -/

variable [Arithmetic P]

/-- What a relation holds; nothing, for tuples of the given arity, if it is new. -/
def rows (s : InternedStore P) (relation : Name) (arity : Nat) : Relation P :=
  (s.byRelation.get? relation).getD ⟨arity, .empty⟩

/-- The store with a ground tuple at a probability. -/
def insert (s : InternedStore P) (relation : Name) (tuple : List Name) (p : P) : InternedStore P :=
  let (key, constants) := Interner.internAll tuple s.constants
  let rows := s.rows relation key.length
  { byRelation := s.byRelation.insert relation { rows with tuples := rows.tuples.insert key p }
    constants
    domain := tuple.foldl (fun domain c => NameSet.insert c domain) s.domain }

/-- Add a fact or replace its probability, unless there is a complaint. -/
def add (s : InternedStore P) (relation : Name) (tuple : List Term) (p : P) :
    Except (FactError P) (InternedStore P) :=
  match Store.complaint? (s.arity? relation) relation tuple p with
  | some fault => .error fault
  | none => .ok (s.insert relation (tuple.map Term.name) (Arithmetic.canonical p))

end InternedStore

end SafePlan
