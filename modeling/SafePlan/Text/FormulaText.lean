/-
# SafePlan.Text.FormulaText — written formulas

Formulas are written with the operator first: `true`, `not(f)`, `and(f, g)`,
`or(f, g)`, `exist(x, f)`, `forall(x, f)` and atoms `R(a, x)`. `and` and `or`
take two or more operands and nest to the left. A formula is first read as it
is written (`RawFormula`) and its names are then told apart
(`RawFormula.resolve`): a term is a variable inside the body of a quantifier of
its name and a constant everywhere else, so a formula that is read is closed.
The operators' names are not available as relations.
-/
import SafePlan.Formula
import SafePlan.Text.QueryText

set_option autoImplicit false

namespace SafePlan

/-- The words that begin a formula other than an atom. -/
inductive Keyword where
  | truth
  | not
  | and
  | or
  | exist
  | forAll
  deriving DecidableEq, Repr

def Keyword.ofName? (name : Name) : Option Keyword :=
  if name = "true" then some .truth
  else if name = "not" then some .not
  else if name = "and" then some .and
  else if name = "or" then some .or
  else if name = "exist" then some .exist
  else if name = "forall" then some .forAll
  else none

/-- A formula whose names are not yet told apart into variables and constants.
`and` and `or` have a first operand and others. -/
inductive RawFormula where
  | truth
  | atom (a : RawAtom)
  | not (f : RawFormula)
  | and (first : RawFormula) (others : List RawFormula)
  | or (first : RawFormula) (others : List RawFormula)
  | exist (x : Name) (f : RawFormula)
  | forAll (x : Name) (f : RawFormula)

namespace RawFormula

mutual

/-- The formula that is meant in the scope of the given names. -/
def resolve (scope : List Name) : RawFormula → Formula
  | .truth => .truth
  | .atom a => .atom (a.resolve scope)
  | .not f => .not (f.resolve scope)
  | .and first others => (resolveAll scope others).foldl .and (first.resolve scope)
  | .or first others => (resolveAll scope others).foldl .or (first.resolve scope)
  | .exist x f => .exist x (f.resolve (x :: scope))
  | .forAll x f => .forAll x (f.resolve (x :: scope))

def resolveAll (scope : List Name) : List RawFormula → List Formula
  | [] => []
  | f :: rest => f.resolve scope :: resolveAll scope rest

end

end RawFormula

namespace Text

/-- Two or more operands. -/
def operands (join : RawFormula → List RawFormula → RawFormula) (operand : Reader RawFormula) :
    Reader RawFormula := fun text => do
  let (first, rest) ← operand text
  let (_, rest) ← mark ',' rest
  let (second, rest) ← operand rest
  let (later, rest) ← others operand rest
  return (join first (second :: later), rest)

/-- A bound name and its body. -/
def binding (quantify : Name → RawFormula → RawFormula) (body : Reader RawFormula) :
    Reader RawFormula := fun text => do
  let (x, rest) ← ident text
  let (_, rest) ← mark ',' rest
  let (f, rest) ← body rest
  return (quantify x f, rest)

/-- The formula that begins with a word, from behind the word; `inner` reads the
formulas inside it. -/
def behindWord (inner : Reader RawFormula) (name : Name) : Reader RawFormula :=
  match Keyword.ofName? name with
  | some .truth => fun text => .ok (.truth, text)
  | some .not => enclosed (mapped .not inner)
  | some .and => enclosed (operands .and inner)
  | some .or => enclosed (operands .or inner)
  | some .exist => enclosed (binding .exist inner)
  | some .forAll => enclosed (binding .forAll inner)
  | none => mapped .atom (arguments name)

/-- A formula nested at most `depth` deep. Each level reads a character, so the
text's length is depth enough. -/
def formula : Nat → Reader RawFormula
  | 0 => fun text => .error text
  | depth + 1 => fun text => do
    let (name, rest) ← ident text
    behindWord (formula depth) name rest

end Text

namespace Formula

open Text

/-- The formula that a text writes. -/
def parse (written : String) : Except ParseError Formula := do
  let text := written.toList
  screen text
  match complete (Text.formula text.length) text with
  | .error stop => throw (.unexpected (offset text stop) .formula)
  | .ok f => return f.resolve []

/-- The written form. -/
def format : Formula → String
  | .truth => "true"
  | .atom a => a.display
  | .not f => "not(" ++ f.format ++ ")"
  | .and f g => "and(" ++ f.format ++ ", " ++ g.format ++ ")"
  | .or f g => "or(" ++ f.format ++ ", " ++ g.format ++ ")"
  | .exist x f => "exist(" ++ x ++ ", " ++ f.format ++ ")"
  | .forAll x f => "forall(" ++ x ++ ", " ++ f.format ++ ")"

end Formula

end SafePlan
