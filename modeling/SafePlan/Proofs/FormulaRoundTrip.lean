/-
# SafePlan.Proofs.FormulaRoundTrip — written formulas read back

A formula reads back from its written form exactly when its names are words of
the grammar, no relation is a keyword, and what is bound around a term decides
its kind: variables are bound there and constants are not (`Formula.Writable`).
A constant under a quantifier of its own name would come back as a variable, and
a free variable as a constant.

Both halves follow the scope from the outside in. Written connectives have two
operands, but a text may join more of them; what is read then nests to the left
and stays writable (`writable_foldl`).
-/
import SafePlan.Proofs.FormulaGrammar
import SafePlan.Proofs.Writing

set_option autoImplicit false

namespace SafePlan

open Text

namespace Formula

/-- What a formula has to be like to be written where the names of the scope are
bound: see `Term.Writable` for what the scope decides. -/
def Writable (scope : List Name) : Formula → Prop
  | .truth => True
  | .atom a => a.Writable scope ∧ ∀ keyword : Keyword, a.relation ≠ keyword.word
  | .not f => f.Writable scope
  | .and f g => f.Writable scope ∧ g.Writable scope
  | .or f g => f.Writable scope ∧ g.Writable scope
  | .exist x f => IsIdent x ∧ f.Writable (x :: scope)
  | .forAll x f => IsIdent x ∧ f.Writable (x :: scope)

/-- The formula with its names only, as it is written. -/
def raw : Formula → RawFormula
  | .truth => .truth
  | .atom a => .atom a.raw
  | .not f => .not f.raw
  | .and f g => .and f.raw [g.raw]
  | .or f g => .or f.raw [g.raw]
  | .exist x f => .exist x f.raw
  | .forAll x f => .forAll x f.raw

/-! ## What is written derives -/

variable {scope : List Name} {keyword : Keyword}
  {join : RawFormula → List RawFormula → RawFormula} {op : Formula → Formula → Formula}
  {quantify : Name → RawFormula → RawFormula} {bind : Name → Formula → Formula}

theorem resolve_raw {f : Formula} (writable : f.Writable scope) : f.raw.resolve scope = f := by
  induction f generalizing scope with
  | truth => rfl
  | atom a => rw [raw, RawFormula.resolve, Atom.resolve_raw writable.1]
  | not f ih => rw [raw, RawFormula.resolve, ih writable]
  | and f g ihf ihg =>
    rw [raw, RawFormula.resolve_joined .and, ihf writable.1]
    simp only [List.map_cons, ihg writable.2]
    rfl
  | or f g ihf ihg =>
    rw [raw, RawFormula.resolve_joined .or, ihf writable.1]
    simp only [List.map_cons, ihg writable.2]
    rfl
  | exist x f ih => rw [raw, RawFormula.resolve, ih writable.2]
  | forAll x f ih => rw [raw, RawFormula.resolve, ih writable.2]

/-- Two operands behind a keyword. -/
theorem formulaText_joined (connective : Connective keyword join op) {f g : RawFormula}
    {first second : String} (isFirst : FormulaText f first.toList)
    (isSecond : FormulaText g second.toList) :
    FormulaText (join f [g])
      (keyword.word ++ "(" ++ first ++ ", " ++ second ++ ")").toList := by
  have joined := FormulaText.joined connective (token_self _) (token_self ['(']) isFirst
    (.next token_comma isSecond .none) (token_self [')'])
  simpa using joined

/-- A bound name and its body behind a keyword. -/
theorem formulaText_bound (quantifier : Quantifier keyword quantify bind) {x : Name}
    {f : RawFormula} {body : String} (isIdent : IsIdent x) (isBody : FormulaText f body.toList) :
    FormulaText (quantify x f) (keyword.word ++ "(" ++ x ++ ", " ++ body ++ ")").toList := by
  have bound := FormulaText.bound quantifier (token_self _) (token_self ['(']) isIdent.wordText
    token_comma isBody (token_self [')'])
  simpa using bound

theorem formulaText_format {f : Formula} (idents : ∀ x ∈ scope, IsIdent x)
    (writable : f.Writable scope) : FormulaText f.raw f.format.toList := by
  induction f generalizing scope with
  | truth => exact .truth (token_self _)
  | atom a => exact .atom (Atom.atomText_display idents writable.1) writable.2
  | not f ih =>
    have negated := FormulaText.not (token_self _) (token_self ['(']) (ih idents writable)
      (token_self [')'])
    simpa [format, raw, Keyword.word] using negated
  | and f g ihf ihg =>
    exact formulaText_joined .and (ihf idents writable.1) (ihg idents writable.2)
  | or f g ihf ihg =>
    exact formulaText_joined .or (ihf idents writable.1) (ihg idents writable.2)
  | exist x f ih =>
    refine formulaText_bound .exist writable.1 (ih ?_ writable.2)
    exact List.forall_mem_cons.2 ⟨writable.1, idents⟩
  | forAll x f ih =>
    refine formulaText_bound .forAll writable.1 (ih ?_ writable.2)
    exact List.forall_mem_cons.2 ⟨writable.1, idents⟩

/-! ## What is read is writable -/

/-- Operands that are writable stay so when they are joined from the left. -/
theorem writable_foldl (connective : Connective keyword join op) {first : Formula}
    {others : List Formula} (isFirst : first.Writable scope)
    (areOthers : ∀ f ∈ others, f.Writable scope) : (others.foldl op first).Writable scope := by
  induction others generalizing first with
  | nil => exact isFirst
  | cons second rest ih =>
    obtain ⟨isSecond, areRest⟩ := List.forall_mem_cons.1 areOthers
    have both : (op first second).Writable scope := by
      cases connective <;> exact ⟨isFirst, isSecond⟩
    exact ih both areRest

theorem writable_resolve {raw : RawFormula} {text : Chars} (derived : FormulaText raw text) :
    (raw.resolve scope).Writable scope := by
  -- on the length of the text, since the operands of a connective are a list of texts
  induction size : text.length using Nat.strongRecOn generalizing raw text scope with
  | ind size ih =>
    have nested {g : RawFormula} {inner : Chars} (scope : List Name) (within : FormulaText g inner)
        (shorter : inner.length < text.length) : (g.resolve scope).Writable scope :=
      ih inner.length (by omega) within rfl
    cases derived with
    | truth => trivial
    | atom isAtom relation => exact ⟨Atom.writable_resolve isAtom, relation⟩
    | not _ opening inner _ =>
      have := opening.length_pos
      simp only [List.length_append] at nested
      have body := nested scope inner (by omega)
      exact body
    | joined connective _ opening here more _ =>
      have := opening.length_pos
      simp only [List.length_append] at nested
      have areOthers := FurtherText.forall_mem
        (more.imp fun _ _ _ shorter within => nested scope within (by omega))
      rw [RawFormula.resolve_joined connective]
      exact writable_foldl connective (nested scope here (by omega))
        (List.forall_mem_map.2 areOthers)
    | @bound _ _ _ x _ _ _ _ _ _ _ quantifier _ opening name _ inner _ =>
      have := opening.length_pos
      simp only [List.length_append] at nested
      have body := nested (x :: scope) inner (by omega)
      rw [RawFormula.resolve_bound quantifier]
      cases quantifier <;> exact ⟨name.1, body⟩

theorem writable_of_parse {written : String} {f : Formula} (read : parse written = .ok f) :
    f.Writable [] := by
  by_cases derivable : ∃ raw, FormulaText raw written.toList
  · obtain ⟨raw, derived⟩ := derivable
    rw [parse_of_formulaText derived] at read
    cases read
    exact writable_resolve derived
  · have refused := parse_of_not_formulaText (not_exists.1 derivable)
    rw [read] at refused
    simp at refused

/-- **Formulas read back from their written form exactly when it can say them,
and what has been read always does.** -/
theorem parse_format_iff_writable :
    (∀ f : Formula, parse f.format = .ok f ↔ f.Writable []) ∧
      ∀ (written : String) (f : Formula), parse written = .ok f →
        f.Writable [] ∧ parse f.format = .ok f := by
  have readsBack : ∀ f : Formula, f.Writable [] → parse f.format = .ok f := by
    intro f writable
    rw [parse_of_formulaText (formulaText_format (by simp) writable), resolve_raw writable]
  refine ⟨fun f => ⟨writable_of_parse, readsBack f⟩, fun written f read => ?_⟩
  have writable := writable_of_parse read
  exact ⟨writable, readsBack f writable⟩

/-- A constant under a quantifier of its name comes back as the variable. -/
example : parse (format (.exist "x" (.atom ⟨"R", [.const "x"]⟩)))
    = .ok (.exist "x" (.atom ⟨"R", [.var "x"]⟩)) := by cbv

end Formula

end SafePlan
