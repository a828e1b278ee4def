/-
# SafePlan.Hierarchy — hierarchical queries

A query is hierarchical when the sets of atoms that any two of its variables
occur in are nested or disjoint. Two variables conflict otherwise: some atom
holds both, and each occurs in an atom without the other. The first conflict
in the order of declaration is the one reported.

Positions are unbounded here. Where they are collected as numbers of 32 bits, the
outcome is the same for up to `2 ^ 32` atoms (`SafePlan.Proofs.Occurrences`).
-/
import SafePlan.Unsupported

set_option autoImplicit false

namespace SafePlan

/-- The positions of the atoms that mention a variable. -/
def occurrences (atoms : List Atom) (x : Name) : List Nat :=
  atoms.zipIdx.filterMap fun (a, position) => if a.mentions x then some position else none

/-- When two variables conflict, the relation of the first atom that holds both. -/
def conflict? (atoms : List Atom) (x y : Name) : Option Name :=
  if atoms.any (fun a => a.mentions x && !a.mentions y) &&
      atoms.any (fun a => a.mentions y && !a.mentions x) then
    (atoms.find? fun a => a.mentions x && a.mentions y).map Atom.relation
  else none

/-- The first conflict between two of the variables. -/
def firstConflict? (atoms : List Atom) : List Name → Option Unsupported
  | [] => none
  | x :: later =>
    (later.findSome? fun y => (conflict? atoms x y).map (.notHierarchical x y)).or
      (firstConflict? atoms later)

namespace Query

def checkHierarchical (q : Query) : Except Unsupported Unit :=
  match firstConflict? q.atoms q.vars with
  | some conflict => .error conflict
  | none => .ok ()

def isHierarchical (q : Query) : Bool := (firstConflict? q.atoms q.vars).isNone

end Query

end SafePlan
