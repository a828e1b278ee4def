/-
# SafePlan.Proofs.JsonForms — what is read from JSON, and that what is written reads back

Three schemes of tagging meet in the JSON forms. A term has its tag in a field beside
its name, a formula is tagged by the name of its only field, and the constant formula
is a bare text. For each of them a relation says which values are forms of what
(`Form`), with the spellings that are read but never written: a record as the list of
its fields, a case without contents as an object that holds null, other fields beside
those that count. These in turn must not be repeated. Reading is exactly that relation
(`ofJson?_eq_some_iff`), and what is written is in it (`form_toJson`), so it reads back.

A query is checked as it is read. A value has two lists for it, the variables none when
they are left out, and `Query.make` decides about them (`Query.ofJson?_of_lists`).
-/
import SafePlan.Json.Forms
import SafePlan.Proofs.Outcome

set_option autoImplicit false

namespace SafePlan

/-! ## Records and cases -/

namespace Json

/-- The name stands at most once among the fields, and what its field holds. -/
def Field (name : String) (value : Option Json) (fields : List (String × Json)) : Prop :=
  fields.filter (·.1 = name) = (value.map (name, ·)).toList

/-- A record of two fields and what they hold: an object, in which either may be missing,
neither may be repeated and others may stand, or the list of both. -/
inductive Record (first second : String) : Option Json → Option Json → Json → Prop
  | object {fields : List (String × Json)} {a b : Option Json}
      (here : Field first a fields) (there : Field second b fields) :
      Record first second a b (.object fields)
  | positional {a b : Json} : Record first second (some a) (some b) (.list [a, b])

/-- A case with its contents. Without contents it is its name, or an object with null in
the field of that name; with one, an object with that in the field; with several, an
object with the list of them. -/
inductive Tagged (name : String) : List Json → Json → Prop
  | bare : Tagged name [] (.text name)
  | null : Tagged name [] (.object [(name, .null)])
  | one {content : Json} : Tagged name [content] (.object [(name, content)])
  | several {first second : Json} {rest : List Json} :
      Tagged name (first :: second :: rest) (.object [(name, .list (first :: second :: rest))])

theorem text?_eq_some_iff {form : Json} {value : String} :
    form.text? = some value ↔ form = .text value := by
  cases form <;> simp [text?]

theorem list?_eq_some_iff {form : Json} {items : List Json} :
    form.list? = some items ↔ form = .list items := by
  cases form <;> simp [list?]

theorem case?_eq_some_iff {form : Json} {name : String} :
    form.case? = some name ↔ Tagged name [] form := by
  constructor
  · intro read
    unfold case? at read
    split at read
    · cases read
      exact .bare
    · cases read
      exact .null
    · cases read
  · rintro (_ | _) <;> rfl

theorem field?_eq_some_iff {name : String} {fields : List (String × Json)} {a : Option Json} :
    field? name fields = some a ↔ Field name a fields := by
  have named : ∀ field ∈ fields.filter (·.1 = name), field.1 = name := by
    intro field listed
    simpa using List.of_mem_filter listed
  unfold field? Field
  generalize fields.filter (·.1 = name) = found at named
  obtain _ | ⟨⟨other, value⟩, _ | ⟨second, more⟩⟩ := found
  · cases a <;> simp
  · obtain rfl : other = name := named _ List.mem_cons_self
    cases a <;> simp
  · cases a <;> simp

theorem record?_eq_some_iff {first second : String} {form : Json} {a b : Option Json} :
    form.record? first second = some (a, b) ↔ Record first second a b form := by
  constructor
  · intro read
    unfold record? at read
    split at read
    · simp only [Option.bind_eq_bind, Option.bind_eq_some_iff, Option.pure_def, Option.some.injEq,
        field?_eq_some_iff] at read
      obtain ⟨_, here, _, there, same⟩ := read
      cases same
      exact .object here there
    · cases read
      exact .positional
    · cases read
  · rintro (⟨here, there⟩ | _)
    · rw [record?, field?_eq_some_iff.2 here, field?_eq_some_iff.2 there]
      rfl
    · rfl

theorem texts_iff {forms : List Json} {values : List String} :
    List.Forall₂ (fun form value => form.text? = some value) forms values ↔
      forms = values.map .text := by
  simp only [text?_eq_some_iff]
  rw [← List.forall₂_eq_eq_eq, List.forall₂_map_right_iff]

end Json

/-! ## Terms -/

namespace Term

/-- The name of a term's case. -/
def tag : Term → String
  | .const _ => "constant"
  | .var _ => "variable"

inductive Form (term : Term) : Json → Prop
  | object {fields : List (String × Json)} {tag : Json} (tagged : Json.Field "tag" (some tag) fields)
      (isTag : Json.Tagged term.tag [] tag)
      (named : Json.Field "name" (some (.text term.name)) fields) : Form term (.object fields)
  | positional : Form term (.list [.text term.tag, .text term.name])

theorem ofTag?_eq_some_iff {tag : String} {name : Name} {term : Term} :
    ofTag? tag name = some term ↔ tag = term.tag ∧ name = term.name := by
  unfold ofTag?
  cases term with
  | const c => split <;> simp_all [Term.tag, Term.name, eq_comm]
  | var x => split <;> simp_all [Term.tag, Term.name]

theorem ofJson?_eq_some_iff {form : Json} {term : Term} :
    ofJson? form = some term ↔ Form term form := by
  constructor
  · intro read
    unfold ofJson? at read
    split at read
    · simp only [Option.bind_eq_bind, Option.bind_eq_some_iff, Json.field?_eq_some_iff,
        Json.case?_eq_some_iff, Json.text?_eq_some_iff, ofTag?_eq_some_iff] at read
      obtain ⟨_, tagged, _, rfl, _, isTag, _, named, _, rfl, _, rfl, rfl, rfl⟩ := read
      exact .object tagged isTag named
    · obtain ⟨rfl, rfl⟩ := ofTag?_eq_some_iff.1 read
      exact .positional
    · cases read
  · rintro (⟨tagged, isTag, named⟩ | _)
    · simp only [ofJson?, Option.bind_eq_bind, Option.bind_eq_some_iff, Json.field?_eq_some_iff,
        Json.case?_eq_some_iff, Json.text?_eq_some_iff, ofTag?_eq_some_iff]
      exact ⟨_, tagged, _, rfl, _, isTag, _, named, _, rfl, _, rfl, rfl, rfl⟩
    · exact ofTag?_eq_some_iff.2 ⟨rfl, rfl⟩

/-- Even an equal name must not stand twice. -/
example : ofJson? (.object [("tag", .text "variable"), ("name", .text "x"), ("name", .text "x")]) =
    none := by
  rfl

theorem form_toJson (term : Term) : Form term term.toJson := by
  cases term <;> exact .object rfl .bare rfl

end Term

/-! ## Atoms -/

namespace Atom

inductive Form (a : Atom) : Json → Prop
  | record {form : Json} {terms : List Json}
      (fields : Json.Record "relation" "terms" (some (.text a.relation)) (some (.list terms)) form)
      (each : List.Forall₂ Term.Form a.terms terms) : Form a form

theorem ofJson?_eq_some_iff {form : Json} {a : Atom} : ofJson? form = some a ↔ Form a form := by
  simp only [ofJson?, Option.bind_eq_bind, Option.bind_eq_some_iff, Prod.exists,
    Json.record?_eq_some_iff, Json.text?_eq_some_iff, Json.list?_eq_some_iff, mapM_eq_some_iff,
    Term.ofJson?_eq_some_iff, Option.pure_def, Option.some.injEq]
  constructor
  · rintro ⟨_, _, fields, _, rfl, relation, rfl, _, rfl, forms, rfl, terms, each, rfl⟩
    exact .record fields each.flip
  · rintro ⟨fields, each⟩
    exact ⟨_, _, fields, _, rfl, _, rfl, _, rfl, _, rfl, _, each.flip, rfl⟩

theorem form_toJson (a : Atom) : Form a a.toJson := by
  refine .record (.object rfl rfl) (List.forall₂_map_right_iff.2 ?_)
  exact List.forall₂_same.2 fun term _ => term.form_toJson

end Atom

/-! ## Queries -/

namespace Query

/-- The two lists that a value has for a query, whether or not they make one. The
variables are none if they are left out. -/
inductive Lists : List Name → List Atom → Json → Prop
  | declared {vars : List Name} {atoms : List Atom} {form : Json} {forms : List Json}
      (fields : Json.Record "variables" "atoms" (some (.list (vars.map .text)))
        (some (.list forms)) form)
      (each : List.Forall₂ Atom.Form atoms forms) : Lists vars atoms form
  | undeclared {atoms : List Atom} {form : Json} {forms : List Json}
      (fields : Json.Record "variables" "atoms" none (some (.list forms)) form)
      (each : List.Forall₂ Atom.Form atoms forms) : Lists [] atoms form

/-- **What is read as a query is what its lists make.** -/
theorem ofJson?_of_lists {vars : List Name} {atoms : List Atom} {form : Json}
    (lists : Lists vars atoms form) : ofJson? form = (make vars atoms).toOption := by
  have texts : (vars.map Json.text).mapM Json.text? = some vars :=
    mapM_eq_some_iff.2 (Json.texts_iff.2 rfl)
  have read {forms : List Json} (each : List.Forall₂ Atom.Form atoms forms) :
      forms.mapM Atom.ofJson? = some atoms :=
    mapM_eq_some_iff.2 (each.flip.imp fun _ _ => Atom.ofJson?_eq_some_iff.2)
  cases lists with
  | declared fields each =>
    rw [ofJson?, Json.record?_eq_some_iff.2 fields]
    simp only [Option.bind_eq_bind, Option.bind_some, Option.getD_some, Json.list?, texts,
      read each]
  | undeclared fields each =>
    rw [ofJson?, Json.record?_eq_some_iff.2 fields]
    simp only [Option.bind_eq_bind, Option.bind_some, Option.getD_none, Json.list?,
      List.mapM_nil, Option.pure_def, read each]

theorem lists_of_ofJson? {form : Json} {q : Query} (read : ofJson? form = some q) :
    Lists q.vars q.atoms form := by
  simp only [ofJson?, Option.bind_eq_bind, Option.bind_eq_some_iff, Prod.exists,
    Json.record?_eq_some_iff, Json.list?_eq_some_iff, mapM_eq_some_iff, Json.texts_iff,
    Atom.ofJson?_eq_some_iff] at read
  obtain ⟨names, _, fields, _, given, vars, rfl, _, rfl, forms, rfl, atoms, each, accepted⟩ := read
  obtain ⟨rfl, rfl⟩ := lists_of_make (toOption_eq_some_iff.1 accepted)
  cases names with
  | some names =>
    obtain rfl : names = .list (q.vars.map .text) := given
    exact .declared fields each.flip
  | none =>
    have none : q.vars = [] := by simpa using given.symm
    rw [none]
    exact .undeclared fields each.flip

/-- **A value is read as a query exactly when the query's lists are the value's.** -/
theorem ofJson?_eq_some_iff {form : Json} {q : Query} :
    ofJson? form = some q ↔ Lists q.vars q.atoms form := by
  refine ⟨lists_of_ofJson?, fun lists => ?_⟩
  rw [ofJson?_of_lists lists, make_eq_ok]
  rfl

theorem lists_toJson (q : Query) : Lists q.vars q.atoms q.toJson := by
  refine .declared (.object rfl rfl) (List.forall₂_map_right_iff.2 ?_)
  exact List.forall₂_same.2 fun a _ => a.form_toJson

end Query

/-! ## Formulas -/

namespace Formula

/-- The forms of a formula: its outermost operator as a case, with the forms of its parts. -/
inductive Form : Formula → Json → Prop
  | truth {form : Json} (tagged : Json.Tagged "true" [] form) : Form .truth form
  | atom {a : Atom} {content form : Json} (isAtom : Atom.Form a content)
      (tagged : Json.Tagged "atom" [content] form) : Form (.atom a) form
  | not {f : Formula} {content form : Json} (body : Form f content)
      (tagged : Json.Tagged "not" [content] form) : Form (.not f) form
  | and {f g : Formula} {first second form : Json} (left : Form f first) (right : Form g second)
      (tagged : Json.Tagged "and" [first, second] form) : Form (.and f g) form
  | or {f g : Formula} {first second form : Json} (left : Form f first) (right : Form g second)
      (tagged : Json.Tagged "or" [first, second] form) : Form (.or f g) form
  | exist {x : Name} {f : Formula} {content form : Json} (body : Form f content)
      (tagged : Json.Tagged "exists" [.text x, content] form) : Form (.exist x f) form
  | forAll {x : Name} {f : Formula} {content form : Json} (body : Form f content)
      (tagged : Json.Tagged "for_all" [.text x, content] form) : Form (.forAll x f) form

theorem form_of_ofJson? {form : Json} {f : Formula} (read : ofJson? form = some f) :
    Form f form := by
  fun_induction ofJson? form generalizing f with
  | case1 =>
    cases read
    exact .truth .bare
  | case2 =>
    cases read
    exact .truth .null
  | case3 content =>
    obtain ⟨a, isAtom, rfl⟩ := Option.map_eq_some_iff.1 read
    exact .atom (Atom.ofJson?_eq_some_iff.1 isAtom) .one
  | case4 content ih =>
    obtain ⟨g, body, rfl⟩ := Option.map_eq_some_iff.1 read
    exact .not (ih body) .one
  | case5 first second ihf ihg =>
    obtain ⟨f, left, others⟩ := Option.bind_eq_some_iff.1 read
    obtain ⟨g, right, whole⟩ := Option.bind_eq_some_iff.1 others
    cases whole
    exact .and (ihf left) (ihg right) .several
  | case6 first second ihf ihg =>
    obtain ⟨f, left, others⟩ := Option.bind_eq_some_iff.1 read
    obtain ⟨g, right, whole⟩ := Option.bind_eq_some_iff.1 others
    cases whole
    exact .or (ihf left) (ihg right) .several
  | case7 x content ih =>
    obtain ⟨g, body, rfl⟩ := Option.map_eq_some_iff.1 read
    exact .exist (ih body) .several
  | case8 x content ih =>
    obtain ⟨g, body, rfl⟩ := Option.map_eq_some_iff.1 read
    exact .forAll (ih body) .several
  | case9 => cases read

theorem ofJson?_of_form {form : Json} {f : Formula} (isForm : Form f form) :
    ofJson? form = some f := by
  induction isForm with
  | truth tagged => cases tagged <;> rfl
  | atom isAtom tagged =>
    cases tagged
    rw [ofJson?, Atom.ofJson?_eq_some_iff.2 isAtom, Option.map_some]
  | not body tagged ih =>
    cases tagged
    rw [ofJson?, ih, Option.map_some]
  | and left right tagged ihf ihg =>
    cases tagged
    rw [ofJson?, ihf, ihg]
    rfl
  | or left right tagged ihf ihg =>
    cases tagged
    rw [ofJson?, ihf, ihg]
    rfl
  | exist body tagged ih =>
    cases tagged
    rw [ofJson?, ih, Option.map_some]
  | forAll body tagged ih =>
    cases tagged
    rw [ofJson?, ih, Option.map_some]

theorem ofJson?_eq_some_iff {form : Json} {f : Formula} : ofJson? form = some f ↔ Form f form :=
  ⟨form_of_ofJson?, ofJson?_of_form⟩

theorem form_toJson (f : Formula) : Form f f.toJson := by
  induction f with
  | truth => exact .truth .bare
  | atom a => exact .atom a.form_toJson .one
  | not f ih => exact .not ih .one
  | and f g ihf ihg => exact .and ihf ihg .several
  | or f g ihf ihg => exact .or ihf ihg .several
  | exist x f ih => exact .exist ih .several
  | forAll x f ih => exact .forAll ih .several

end Formula

/-- **Forms read back.** What is written of a term, an atom, a query or a formula reads as
the same again. A value reads as the query whose lists it has, one that `Query.make` accepts,
and a value whose lists are refused does not read. -/
theorem ofJson?_toJson :
    (∀ term : Term, Term.ofJson? term.toJson = some term) ∧
    (∀ a : Atom, Atom.ofJson? a.toJson = some a) ∧
    (∀ q : Query, Query.ofJson? q.toJson = some q) ∧
    (∀ f : Formula, Formula.ofJson? f.toJson = some f) ∧
    (∀ form q, Query.ofJson? form = some q ↔
      Query.Lists q.vars q.atoms form ∧ Query.make q.vars q.atoms = .ok q) ∧
    ∀ form vars atoms fault, Query.Lists vars atoms form →
      Query.make vars atoms = .error fault → Query.ofJson? form = none := by
  refine ⟨fun term => ?_, fun a => ?_, fun q => ?_, fun f => ?_, fun form q => ?_,
    fun form vars atoms fault lists refused => ?_⟩
  · exact Term.ofJson?_eq_some_iff.2 term.form_toJson
  · exact Atom.ofJson?_eq_some_iff.2 a.form_toJson
  · exact Query.ofJson?_eq_some_iff.2 q.lists_toJson
  · exact Formula.ofJson?_eq_some_iff.2 f.form_toJson
  · rw [Query.ofJson?_eq_some_iff]
    exact (and_iff_left (Query.make_eq_ok q)).symm
  · rw [Query.ofJson?_of_lists lists, refused]
    rfl

/-- A query as the list of its fields, and a tag that holds null. -/
example : Query.ofJson? (.list [.list [.text "x"], .list [.object [("relation", .text "R"),
    ("terms", .list [.object [("name", .text "x"), ("tag", .object [("variable", .null)])]])]]]) =
      (Query.make ["x"] [⟨"R", [.var "x"]⟩]).toOption := by
  rfl

end SafePlan
