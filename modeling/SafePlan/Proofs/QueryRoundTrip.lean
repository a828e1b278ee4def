/-
# SafePlan.Proofs.QueryRoundTrip — written queries read back

A query reads back from its written form exactly when it has an atom and its
names are words of the grammar (`Query.Writable`). Declared variables take care
of the rest: a term's name is a declared one exactly when it is a variable,
because every query is `Query.Valid`.

One half is that the written form derives (`queryText_format`), the other that
whatever is read has these properties (`writable_of_parse`).
-/
import SafePlan.Proofs.QueryGrammar
import SafePlan.Proofs.Writing

set_option autoImplicit false

namespace SafePlan.Query

open Text

/-- What a query has to be like to be written: there is an atom, and all names
are words. Declared variables need not occur in atoms. -/
structure Writable (q : Query) : Prop where
  nonempty : q.atoms ≠ []
  declarations : ∀ x ∈ q.vars, IsIdent x
  relations : ∀ a ∈ q.atoms, IsIdent a.relation
  constants : ∀ a ∈ q.atoms, ∀ c, Term.const c ∈ a.terms → IsTermName c

/-! ## What is written derives -/

/-- In a query, names alone tell variables from constants. -/
theorem Writable.atom {q : Query} (writable : q.Writable) {a : Atom} (listed : a ∈ q.atoms) :
    a.Writable q.vars where
  relation := writable.relations a listed
  terms
    | .const c, here => ⟨writable.constants a listed c here, q.valid.unshadowed a listed c here⟩
    | .var x, here => q.valid.declared a listed x here

theorem Writable.resolve_raw {q : Query} (writable : q.Writable) :
    (q.atoms.map Atom.raw).map (RawAtom.resolve q.vars) = q.atoms := by
  rw [List.map_map]
  exact (List.map_congr_left fun a listed => Atom.resolve_raw (writable.atom listed)).trans
    (List.map_id _)

/-- The bar between declarations and atoms. -/
theorem token_bar : Token ['|'] " | ".toList :=
  ⟨[' '], [' '], by simp [Gap], by simp [Gap], rfl⟩

theorem Writable.queryText_format {q : Query} (writable : q.Writable) :
    QueryText ⟨q.vars, q.atoms.map Atom.raw⟩ q.format.toList := by
  have atoms : ListText AtomText (q.atoms.map Atom.raw)
      (", ".intercalate (q.atoms.map Atom.display)).toList :=
    listText_intercalate writable.nonempty fun a listed =>
      Atom.atomText_display writable.declarations (writable.atom listed)
  rw [format, String.toList_append]
  split <;> rename_i undeclared
  · rw [List.isEmpty_iff.1 undeclared]
    exact .ground atoms
  · have vars : ListText IdentText (q.vars.map id) (", ".intercalate (q.vars.map id)).toList :=
      listText_intercalate (by simpa using undeclared) fun x listed =>
        (writable.declarations x listed).wordText
    rw [List.map_id] at vars
    rw [String.toList_append, List.append_assoc]
    exact .declared vars token_bar atoms

/-! ## What is read is writable -/

/-- A query is read from a list of atoms, with declarations or without. -/
theorem exists_listText_atoms {raw : RawQuery} {text : Chars} (derived : QueryText raw text) :
    ∃ body, ListText AtomText raw.atoms body := by
  cases derived with
  | ground atoms => exact ⟨_, atoms⟩
  | declared _ _ atoms => exact ⟨_, atoms⟩

theorem isIdent_of_declared {raw : RawQuery} {text : Chars} (derived : QueryText raw text) :
    ∀ x ∈ raw.vars, IsIdent x := by
  cases derived with
  | ground _ => simp
  | declared vars _ _ => exact (vars.imp fun _ _ _ _ isIdent => isIdent.1).forall_mem

theorem exists_queryText_of_parse {written : String} {q : Query} (read : parse written = .ok q) :
    ∃ raw, QueryText raw written.toList ∧ q.vars = raw.vars ∧
      q.atoms = raw.atoms.map (RawAtom.resolve raw.vars) := by
  by_cases derivable : ∃ raw, QueryText raw written.toList
  · obtain ⟨raw, derived⟩ := derivable
    rw [parse_of_queryText derived] at read
    cases made : make raw.vars (raw.atoms.map (RawAtom.resolve raw.vars)) with
    | error fault =>
      rw [made] at read
      cases read
    | ok q' =>
      rw [made] at read
      cases read
      exact ⟨raw, derived, lists_of_make made⟩
  · have refused := parse_of_not_queryText (not_exists.1 derivable)
    rw [read] at refused
    simp at refused

theorem writable_of_parse {written : String} {q : Query} (read : parse written = .ok q) :
    q.Writable := by
  obtain ⟨raw, derived, vars, atoms⟩ := exists_queryText_of_parse read
  obtain ⟨_, listed⟩ := exists_listText_atoms derived
  have each : ∀ a ∈ q.atoms, a.Writable raw.vars := by
    rw [atoms, List.forall_mem_map]
    exact (listed.imp fun _ _ _ _ isAtom => Atom.writable_resolve isAtom).forall_mem
  exact {
    nonempty := by simpa [atoms] using listed.ne_nil
    declarations := vars ▸ isIdent_of_declared derived
    relations := fun a here => (each a here).relation
    constants := fun a here c isConst => ((each a here).terms _ isConst).1 }

/-- **Queries read back from their written form exactly when it can say them,
and what has been read always does.** -/
theorem parse_format_iff :
    (∀ q : Query, parse q.format = .ok q ↔ q.Writable) ∧
      ∀ (written : String) (q : Query), parse written = .ok q →
        q.Writable ∧ parse q.format = .ok q := by
  have readsBack : ∀ q : Query, q.Writable → parse q.format = .ok q := by
    intro q writable
    rw [parse_of_queryText writable.queryText_format, writable.resolve_raw, make_eq_ok]
    rfl
  refine ⟨fun q => ⟨writable_of_parse, readsBack q⟩, fun written q read => ?_⟩
  have writable := writable_of_parse read
  exact ⟨writable, readsBack q writable⟩

/-- A declared variable is written whether it occurs or not. -/
example : (parse "x,y|R( x,v1.2 )").map format = .ok "x, y | R(x, v1.2)" := by cbv

end SafePlan.Query
