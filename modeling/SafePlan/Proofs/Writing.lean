/-
# SafePlan.Proofs.Writing — what is written derives from the grammar

Written forms put one space behind each comma and no other gaps, and they do not
tell variables from constants. So a text can only say what it should if its
names are words of the grammar (`Spelled`), and a name alone decides in its
scope what kind of term it is (`Term.Writable`).

For atoms that is all there is to it: those with writable names are written by
texts of the grammar (`atomText_display`) and told apart as they were
(`resolve_raw`), and whatever is read from a text is writable (`writable_resolve`).
-/
import SafePlan.Proofs.Grammar

set_option autoImplicit false

namespace SafePlan

namespace Text

/-! ## Words -/

/-- Spelled with one first character and any number of later ones. -/
def Spelled (first later : Char → Bool) (name : Name) : Prop :=
  ∃ c more, name.toList = c :: more ∧ first c = true ∧ ∀ d ∈ more, later d = true

/-- `[A-Za-z_][A-Za-z0-9_]*`. -/
abbrev IsIdent : Name → Prop := Spelled isIdentStart isIdentChar

/-- `[A-Za-z0-9_.-]+`. -/
abbrev IsTermName : Name → Prop := Spelled isTermChar isTermChar

theorem Spelled.wordText {first later : Char → Bool} {name : Name}
    (spelled : Spelled first later name) : WordText first later name name.toList :=
  ⟨spelled, token_self _⟩

/-- Words of a plain kind are names of terms too. -/
theorem Spelled.isTermName {first later : Char → Bool} (plain : Plain first later) {name : Name}
    (spelled : Spelled first later name) : IsTermName name := by
  obtain ⟨c, more, same, starts, continues⟩ := spelled
  exact ⟨c, more, same, plain.first c starts, fun d listed => plain.later d (continues d listed)⟩

/-! ## Lists -/

section Lists

variable {α : Type} {item : α → Chars → Prop}

/-- What holds of every item of a list that is written. -/
theorem FurtherText.forall_mem {p : α → Prop} {later : List α} {text : Chars}
    (written : FurtherText (fun a _ => p a) later text) : ∀ a ∈ later, p a := by
  induction written with
  | none => simp
  | next _ here _ ih => exact List.forall_mem_cons.2 ⟨here, ih⟩

theorem ListText.forall_mem {p : α → Prop} {values : List α} {text : Chars}
    (written : ListText (fun a _ => p a) values text) : ∀ a ∈ values, p a := by
  obtain ⟨here, more⟩ := written
  exact List.forall_mem_cons.2 ⟨here, more.forall_mem⟩

theorem ListText.ne_nil {values : List α} {text : Chars} (written : ListText item values text) :
    values ≠ [] := by
  obtain ⟨-, -⟩ := written
  exact List.cons_ne_nil _ _

/-- A comma and the space behind it. -/
theorem token_comma : Token [','] ", ".toList :=
  ⟨[], [' '], gap_nil, by simp [Gap], rfl⟩

theorem toList_intercalate_cons (separator first : String) (later : List String) :
    (separator.intercalate (first :: later)).toList
      = first.toList ++ later.flatMap fun s => separator.toList ++ s.toList := by
  induction later generalizing first with
  | nil => simp
  | cons second rest ih =>
    rw [String.intercalate_cons_cons, String.toList_append, String.toList_append, ih,
      List.flatMap_cons, List.append_assoc, List.append_assoc]

variable {β : Type} {value : β → α} {write : β → String}

theorem furtherText_flatMap {later : List β}
    (written : ∀ b ∈ later, item (value b) (write b).toList) :
    FurtherText item (later.map value) (later.flatMap fun b => ", ".toList ++ (write b).toList) := by
  induction later with
  | nil => exact .none
  | cons b rest ih =>
    obtain ⟨here, there⟩ := List.forall_mem_cons.1 written
    rw [List.map_cons, List.flatMap_cons, List.append_assoc]
    exact .next token_comma here (ih there)

/-- Values that are written, with a comma and a space between them. -/
theorem listText_intercalate {elements : List β} (some : elements ≠ [])
    (written : ∀ b ∈ elements, item (value b) (write b).toList) :
    ListText item (elements.map value) (", ".intercalate (elements.map write)).toList := by
  obtain ⟨first, later, rfl⟩ := List.exists_cons_of_ne_nil some
  obtain ⟨here, there⟩ := List.forall_mem_cons.1 written
  rw [List.map_cons, List.map_cons, toList_intercalate_cons, List.flatMap_map]
  exact .items here (furtherText_flatMap there)

end Lists

end Text

/-! ## Terms and atoms -/

open Text

/-- Names decide what the term is: a variable in the scope, or a constant that is
a word and not in the scope. -/
def Term.Writable (scope : List Name) : Term → Prop
  | .const c => IsTermName c ∧ c ∉ scope
  | .var x => x ∈ scope

/-- The relation is an identifier, and names decide what the terms are. -/
structure Atom.Writable (scope : List Name) (a : Atom) : Prop where
  relation : IsIdent a.relation
  terms : ∀ t ∈ a.terms, t.Writable scope

/-- The atom with its names only, as it is written. -/
def Atom.raw (a : Atom) : RawAtom := ⟨a.relation, a.terms.map Term.name⟩

section Scoped

variable {scope : List Name}

theorem Term.resolve_name {t : Term} (writable : t.Writable scope) :
    Text.resolve scope t.name = t := by
  cases t with
  | const c => exact if_neg writable.2
  | var x => exact if_pos writable

theorem Term.writable_resolve {name : Name} (isTermName : IsTermName name) :
    (Text.resolve scope name).Writable scope := by
  unfold Text.resolve
  split <;> rename_i inScope
  · exact inScope
  · exact ⟨isTermName, inScope⟩

/-- The names of terms are words when those of the scope are. -/
theorem Term.isTermName {t : Term} (idents : ∀ x ∈ scope, IsIdent x)
    (writable : t.Writable scope) : IsTermName t.name := by
  cases t with
  | const c => exact writable.1
  | var x => exact (idents x writable).isTermName plain_ident

namespace Atom

theorem resolve_raw {a : Atom} (writable : a.Writable scope) : a.raw.resolve scope = a := by
  have same : (a.terms.map Term.name).map (Text.resolve scope) = a.terms := by
    rw [List.map_map]
    exact (List.map_congr_left fun t listed => Term.resolve_name (writable.terms t listed)).trans
      (List.map_id _)
  show Atom.mk a.relation ((a.terms.map Term.name).map (Text.resolve scope)) = a
  rw [same]

/-- The written form of an atom derives. -/
theorem atomText_display {a : Atom} (idents : ∀ x ∈ scope, IsIdent x)
    (writable : a.Writable scope) : AtomText a.raw a.display.toList := by
  have areTerms : OptionalText TermText (a.terms.map Term.name)
      (", ".intercalate (a.terms.map Term.name)).toList := by
    by_cases none : a.terms = []
    · rw [none]
      exact .nothing
    · refine .list (listText_intercalate none fun t listed => ?_)
      exact (Term.isTermName idents (writable.terms t listed)).wordText
  have applied := AtomText.applied writable.relation.wordText
    (.parens (token_self ['(']) areTerms (token_self [')']))
  show AtomText a.raw (a.relation ++ "(" ++ ", ".intercalate (a.terms.map Term.name) ++ ")").toList
  simp only [String.toList_append, List.append_assoc]
  exact applied

/-- What is read from a text is writable. -/
theorem writable_resolve {raw : RawAtom} {text : Chars} (written : AtomText raw text) :
    (raw.resolve scope).Writable scope := by
  obtain @⟨relation, names, _, _, isIdent, @⟨_, _, _, -, areTerms, -⟩⟩ := written
  refine ⟨isIdent.1, List.forall_mem_map.2 ?_⟩
  cases areTerms with
  | nothing => simp
  | list list =>
    have words : ∀ name ∈ names, IsTermName name :=
      (list.imp fun _ _ _ _ isTerm => isTerm.1).forall_mem
    exact fun name listed => Term.writable_resolve (words name listed)

end Atom

end Scoped

end SafePlan
