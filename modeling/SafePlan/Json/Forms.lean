/-
# SafePlan.Json.Forms — terms, atoms, queries, formulas and options in JSON

Terms are records of a tag and a name, atoms and queries records of their two
parts; the variables of a query may be left out when there are none. A formula
is an object with one field, named for the outermost operator, except for the
bare text `true`. Names of cases count letter by letter. The options are a
record in which any field may be left out.

What is read as a query passes the same checks as any other.
-/
import SafePlan.Evaluation
import SafePlan.Json.Value

set_option autoImplicit false

namespace SafePlan

namespace Term

def toJson : Term → Json
  | .const name => .object [("tag", .text "constant"), ("name", .text name)]
  | .var name => .object [("tag", .text "variable"), ("name", .text name)]

def ofTag? (tag : String) (name : Name) : Option Term :=
  if tag = "constant" then some (.const name)
  else if tag = "variable" then some (.var name)
  else none

/-- A record of a tag and a name. In an object the tag may take either form of a
case; in a list it is the case's name. -/
def ofJson? : Json → Option Term
  | .object fields => do
    let tag ← (← (← Json.field? "tag" fields)).case?
    let name ← (← (← Json.field? "name" fields)).text?
    ofTag? tag name
  | .list [.text tag, .text name] => ofTag? tag name
  | _ => none

end Term

namespace Atom

def toJson (a : Atom) : Json :=
  .object [("relation", .text a.relation), ("terms", .list (a.terms.map Term.toJson))]

def ofJson? (form : Json) : Option Atom := do
  let (relation, terms) ← form.record? "relation" "terms"
  let relation ← (← relation).text?
  let terms ← (← (← terms).list?).mapM Term.ofJson?
  return ⟨relation, terms⟩

end Atom

namespace Query

def toJson (q : Query) : Json :=
  .object [("variables", .list (q.vars.map .text)), ("atoms", .list (q.atoms.map Atom.toJson))]

def ofJson? (form : Json) : Option Query := do
  let (vars, atoms) ← form.record? "variables" "atoms"
  let vars ← (← (vars.getD (.list [])).list?).mapM Json.text?
  let atoms ← (← (← atoms).list?).mapM Atom.ofJson?
  (make vars atoms).toOption

end Query

namespace Formula

def toJson : Formula → Json
  | .truth => .text "true"
  | .atom a => .object [("atom", a.toJson)]
  | .not f => .object [("not", f.toJson)]
  | .and f g => .object [("and", .list [f.toJson, g.toJson])]
  | .or f g => .object [("or", .list [f.toJson, g.toJson])]
  | .exist x f => .object [("exists", .list [.text x, f.toJson])]
  | .forAll x f => .object [("for_all", .list [.text x, f.toJson])]

def ofJson? : Json → Option Formula
  | .text "true" => some .truth
  | .object [("true", .null)] => some .truth
  | .object [("atom", a)] => (Atom.ofJson? a).map .atom
  | .object [("not", f)] => (ofJson? f).map .not
  | .object [("and", .list [f, g])] => do return .and (← ofJson? f) (← ofJson? g)
  | .object [("or", .list [f, g])] => do return .or (← ofJson? f) (← ofJson? g)
  | .object [("exists", .list [.text x, f])] => (ofJson? f).map (.exist x)
  | .object [("for_all", .list [.text x, f])] => (ofJson? f).map (.forAll x)
  | _ => none

end Formula

namespace Options

/-- The options with one set by name; there are no others. -/
def set? (options : Options) : String × Json → Option Options
  | ("trace", .bool value) => some { options with trace := value }
  | ("parallel", .bool value) => some { options with parallel := value }
  | _ => none

/-- The names of the options, in the order in which a list holds their values. -/
def names : List String := ["trace", "parallel"]

/-- Options as an object that names each at most once, or as the list of their
values in order, which may end early. Those left out are off. -/
def ofJson? : Json → Option Options
  | .object fields =>
    if (fields.map Prod.fst).Nodup then fields.foldlM set? {} else none
  | .list values =>
    if values.length ≤ names.length then (names.zip values).foldlM set? {} else none
  | _ => none

end Options

end SafePlan
