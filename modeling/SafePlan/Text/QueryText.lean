/-
# SafePlan.Text.QueryText — written queries

A query is written as its declared variables, a bar and its atoms, all
separated by commas: `x, y | R(x, y), S(x)`. Without variables the bar is left
out. A term is a variable when its name is declared, and a constant otherwise.
-/
import SafePlan.Text.ParseError

set_option autoImplicit false

namespace SafePlan

namespace Text

/-- A name as a term: a variable when it is in scope and a constant otherwise. -/
def resolve (scope : List Name) (name : Name) : Term :=
  if name ∈ scope then .var name else .const name

end Text

/-- A relation applied to names that are not yet told apart into variables and
constants. -/
structure RawAtom where
  relation : Name
  names : List Name
  deriving DecidableEq, Repr

def RawAtom.resolve (scope : List Name) (a : RawAtom) : Atom :=
  ⟨a.relation, a.names.map (Text.resolve scope)⟩

namespace Text

/-- What a relation is applied to, and so an atom of it. -/
def arguments (relation : Name) : Reader RawAtom :=
  mapped (RawAtom.mk relation) (enclosed (items? termName))

def atom : Reader RawAtom := fun text => do
  let (relation, rest) ← ident text
  arguments relation rest

/-- The declared variables and the text of the atoms. -/
def declarations (text : Chars) : Except ParseError (List Name × Chars) :=
  match text.span (· ≠ '|') with
  | (_, []) => .ok ([], text)
  | (before, _ :: after) =>
    match after.dropWhile (· ≠ '|') with
    | [] =>
      match complete (items ident) before with
      | .ok vars => .ok (vars, after)
      | .error stop => .error (.unexpected (offset before stop) .variables)
    | place => .error (.multipleSeparators (offset text place))

end Text

namespace Query

open Text

/-- The query that a text writes. -/
def parse (written : String) : Except ParseError Query := do
  let text := written.toList
  screen text
  let (vars, body) ← declarations text
  match complete (items Text.atom) body with
  | .error stop => throw (.unexpected (offset text stop) .atoms)
  | .ok atoms =>
    match make vars (atoms.map (RawAtom.resolve vars)) with
    | .error fault => throw (.invalid fault)
    | .ok q => return q

/-- The written form. -/
def format (q : Query) : String :=
  (if q.vars.isEmpty then "" else ", ".intercalate q.vars ++ " | ") ++
    ", ".intercalate (q.atoms.map Atom.display)

end Query

end SafePlan
