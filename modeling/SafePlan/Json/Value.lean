/-
# SafePlan.Json.Value — JSON values

The values of JSON documents. An object is the list of its fields in the order
of the document, in which a name may stand twice. Records refuse that of the
names they know; fields of other names are not looked at.
-/
set_option autoImplicit false

namespace SafePlan

inductive Json where
  | null
  | bool (value : Bool)
  /-- A decimal number, `mantissa · 10 ^ -places`. -/
  | number (mantissa : Int) (places : Nat)
  | text (value : String)
  | list (items : List Json)
  | object (fields : List (String × Json))
  deriving Inhabited

namespace Json

def text? : Json → Option String
  | .text value => some value
  | _ => none

def list? : Json → Option (List Json)
  | .list items => some items
  | _ => none

/-- What the field of a name holds, if there is one; of several with the name,
none can be told to count. -/
def field? (name : String) (fields : List (String × Json)) : Option (Option Json) :=
  match fields.filter (·.1 = name) with
  | [] => some none
  | [(_, value)] => some (some value)
  | _ => none

/-- A record of two fields: an object that may have others too, or the list of
the two fields in order. -/
def record? (first second : String) : Json → Option (Option Json × Option Json)
  | .object fields => do return (← field? first fields, ← field? second fields)
  | .list [a, b] => some (some a, some b)
  | _ => none

/-- A case without contents: its name, or an object with null in the field of
that name. -/
def case? : Json → Option String
  | .text name => some name
  | .object [(name, .null)] => some name
  | _ => none

end Json

end SafePlan
