/-
# SafePlan.Proofs.QueryGrammar — which texts are queries

A query is written as a list of atoms, or as a list of variables, a bar and a
list of atoms. Reading one takes stages: the text must not be blank, its
parentheses must pair up, and it is cut at its bar before the two sides are read
as lists. What derives from the grammar passes every stage, because no token has
a bar or half of a pair in it; what passes every stage derives from the grammar
(`queryText_iff`). So the lists that a text derives with are unique, and
`Query.parse_eq_derived` says what becomes of every text.
-/
import Mathlib.Data.List.TakeDrop
import SafePlan.Proofs.Reading

set_option autoImplicit false

namespace SafePlan

namespace Text

/-- The lists of a written query, before they are checked. -/
structure RawQuery where
  vars : List Name
  atoms : List RawAtom

/-- A query, `x, y | R(x, a), S(y)` or `R(a), S(b)`. -/
inductive QueryText : RawQuery → Chars → Prop
  | ground {atoms : List RawAtom} {text : Chars} :
      ListText AtomText atoms text → QueryText ⟨[], atoms⟩ text
  | declared {vars : List Name} {atoms : List RawAtom} {front bar back : Chars} :
      ListText IdentText vars front → Token ['|'] bar → ListText AtomText atoms back →
      QueryText ⟨vars, atoms⟩ (front ++ (bar ++ back))

/-! ## The two lists -/

theorem complete_idents_eq_ok_iff {vars : List Name} {text : Chars} :
    complete (items ident) text = .ok vars ↔ ListText IdentText vars text :=
  complete_eq_ok_iff (sound_word _ _).items (ListText.padded (WordText.padded _ _)) fun written =>
    reads_items (written.imp fun _ _ _ _ isIdent => (reads_ident isIdent).mono (by simp))

theorem complete_atoms_eq_ok_iff {atoms : List RawAtom} {text : Chars} :
    complete (items atom) text = .ok atoms ↔ ListText AtomText atoms text :=
  complete_eq_ok_iff sound_atom.items (ListText.padded AtomText.padded) fun written =>
    reads_items (written.imp fun _ _ _ _ isAtom => reads_atom isAtom)

/-! ## The bar -/

theorem not_bar_of_isWhitespace {c : Char} (gap : c.isWhitespace = true) : c ≠ '|' := by
  rintro rfl
  exact absurd gap (by decide)

theorem Token.no_bar {token text : Chars} (written : Token token text) (inside : '|' ∉ token) :
    '|' ∉ text :=
  fun listed => written.forall_mem (fun _ => not_bar_of_isWhitespace)
    (fun _ here => ne_of_mem_of_not_mem here inside) '|' listed rfl

theorem WordText.no_bar {first later : Char → Bool} (plain : Plain first later) {name : Name}
    {text : Chars} (written : WordText first later name text) : '|' ∉ text := by
  refine fun listed => written.forall_mem plain (fun _ => not_bar_of_isWhitespace) ?_ '|' listed rfl
  rintro c inside rfl
  exact absurd inside (by decide)

theorem ListText.no_bar {α : Type} {values : List α} {text : Chars}
    (written : ListText (fun _ here => '|' ∉ here) values text) : '|' ∉ text := by
  refine written.closed (by simp) (fun front back inFront inBack => ?_)
    fun comma isComma => isComma.no_bar (by decide)
  simp [inFront, inBack]

theorem AtomText.no_bar {a : RawAtom} {text : Chars} (written : AtomText a text) :
    '|' ∉ text := by
  obtain @⟨_, _, name, _, isIdent, @⟨opening, inside, closing, isOpening, isTerms, isClosing⟩⟩ :=
    written
  have noneInside : '|' ∉ inside := by
    cases isTerms with
    | nothing => simp
    | list list => exact ListText.no_bar (list.imp fun _ _ _ _ term => term.no_bar plain_term)
  simp [isIdent.no_bar plain_ident, isOpening.no_bar, isClosing.no_bar, noneInside]

theorem no_bar_of_idents {vars : List Name} {text : Chars}
    (written : ListText IdentText vars text) : '|' ∉ text :=
  ListText.no_bar (written.imp fun _ _ _ _ name => name.no_bar plain_ident)

theorem no_bar_of_atoms {atoms : List RawAtom} {text : Chars}
    (written : ListText AtomText atoms text) : '|' ∉ text :=
  ListText.no_bar (written.imp fun _ _ _ _ isAtom => isAtom.no_bar)

theorem span_append_bar {front back : Chars} (absent : '|' ∉ front) :
    (front ++ '|' :: back).span (· ≠ '|') = (front, '|' :: back) := by
  have before : ∀ c ∈ front, decide (c ≠ '|') = true := by
    simpa using fun c listed => ne_of_mem_of_not_mem listed absent
  rw [List.span_eq_takeWhile_dropWhile, List.takeWhile_append_of_pos before,
    List.dropWhile_append_of_pos before]
  simp

theorem dropWhile_eq_nil_iff_no_bar {text : Chars} :
    text.dropWhile (· ≠ '|') = [] ↔ '|' ∉ text := by
  rw [List.dropWhile_eq_nil_iff]
  simp only [decide_eq_true_eq]
  exact ⟨fun others listed => others _ listed rfl,
    fun absent c listed => ne_of_mem_of_not_mem listed absent⟩

theorem declarations_of_no_bar {text : Chars} (absent : '|' ∉ text) :
    declarations text = .ok ([], text) := by
  rw [declarations, List.span_eq_takeWhile_dropWhile, dropWhile_eq_nil_iff_no_bar.2 absent]

theorem declarations_of_bar {front back : Chars} (absent : '|' ∉ front) (last : '|' ∉ back) :
    declarations (front ++ '|' :: back) = match complete (items ident) front with
      | .ok vars => .ok (vars, back)
      | .error stop => .error (.unexpected (offset front stop) .variables) := by
  rw [declarations, span_append_bar absent]
  cases read : complete (items ident) front <;>
    simp only [dropWhile_eq_nil_iff_no_bar.2 last, read]

theorem declarations_of_bars {first second rest : Chars} (absent : '|' ∉ first)
    (absent' : '|' ∉ second) :
    declarations (first ++ '|' :: (second ++ '|' :: rest)) = .error (.multipleSeparators
      (offset (first ++ '|' :: (second ++ '|' :: rest)) ('|' :: rest))) := by
  have another : (second ++ '|' :: rest).dropWhile (· ≠ '|') = '|' :: rest := by
    have cut : (second ++ '|' :: rest).span (· ≠ '|') = (second, '|' :: rest) :=
      span_append_bar absent'
    rw [List.span_eq_takeWhile_dropWhile] at cut
    exact congrArg Prod.snd cut
  rw [declarations, span_append_bar absent]
  simp only [another]

/-- What becomes of a text at the bar: it is all atoms, or it is cut at its only
bar, or it has another one, or variables cannot be read before it. -/
theorem declarations_cases (text : Chars) :
    ('|' ∉ text ∧ declarations text = .ok ([], text)) ∨
    (∃ front back vars, text = front ++ '|' :: back ∧ '|' ∉ front ∧ '|' ∉ back ∧
      complete (items ident) front = .ok vars ∧ declarations text = .ok (vars, back)) ∨
    (∃ first second rest, text = first ++ '|' :: (second ++ '|' :: rest) ∧ '|' ∉ first ∧
      '|' ∉ second ∧
      declarations text = .error (.multipleSeparators (offset text ('|' :: rest)))) ∨
    ∃ front back stop, text = front ++ '|' :: back ∧ '|' ∉ front ∧ '|' ∉ back ∧
      complete (items ident) front = .error stop ∧
      declarations text = .error (.unexpected (offset front stop) .variables) := by
  by_cases listed : '|' ∈ text
  · obtain ⟨front, back, rfl, absent⟩ := List.eq_append_cons_of_mem listed
    by_cases another : '|' ∈ back
    · obtain ⟨second, rest, rfl, absent'⟩ := List.eq_append_cons_of_mem another
      exact .inr (.inr (.inl
        ⟨front, second, rest, rfl, absent, absent', declarations_of_bars absent absent'⟩))
    · rw [declarations_of_bar absent another]
      cases read : complete (items ident) front with
      | ok vars => exact .inr (.inl ⟨front, back, vars, rfl, absent, another, read, rfl⟩)
      | error stop => exact .inr (.inr (.inr ⟨front, back, stop, rfl, absent, another, read, rfl⟩))
  · exact .inl ⟨listed, declarations_of_no_bar listed⟩

/-- **Derived texts are those that pass the stages of reading.** -/
theorem queryText_iff {raw : RawQuery} {text : Chars} :
    QueryText raw text ↔ ∃ body, declarations text = .ok (raw.vars, body) ∧
      complete (items atom) body = .ok raw.atoms := by
  constructor
  · intro derived
    cases derived with
    | ground atoms =>
      exact ⟨text, declarations_of_no_bar (no_bar_of_atoms atoms),
        complete_atoms_eq_ok_iff.2 atoms⟩
    | @declared vars atoms front bar back isVars isBar isAtoms =>
      obtain ⟨before, after, gapsBefore, gapsAfter, rfl⟩ := isBar
      have isVars' : ListText IdentText vars (front ++ before) := by
        simpa using ListText.padded (WordText.padded _ _) _ [] _ _ gap_nil gapsBefore isVars
      have isAtoms' : ListText AtomText atoms (after ++ back) := by
        simpa using ListText.padded AtomText.padded _ _ _ [] gapsAfter gap_nil isAtoms
      refine ⟨after ++ back, ?_, complete_atoms_eq_ok_iff.2 isAtoms'⟩
      rw [show front ++ (before ++ ['|'] ++ after ++ back)
          = (front ++ before) ++ '|' :: (after ++ back) by simp,
        declarations_of_bar (no_bar_of_idents isVars') (no_bar_of_atoms isAtoms'),
        complete_idents_eq_ok_iff.2 isVars']
  · rintro ⟨body, declared, isAtoms⟩
    rw [complete_atoms_eq_ok_iff] at isAtoms
    obtain ⟨vars, atoms⟩ := raw
    rcases declarations_cases text with
      ⟨-, whole⟩ | ⟨front, back, vars', rfl, -, -, isVars, cut⟩ | refused
    · rw [whole] at declared
      cases declared
      exact .ground isAtoms
    · rw [cut] at declared
      cases declared
      exact .declared (complete_idents_eq_ok_iff.1 isVars) ⟨[], [], gap_nil, gap_nil, rfl⟩ isAtoms
    · rcases refused with ⟨_, _, _, -, -, -, refused⟩ | ⟨_, _, _, -, -, -, -, refused⟩ <;>
        simp [refused] at declared

theorem QueryText.unique {raw other : RawQuery} {text : Chars} (derived : QueryText raw text)
    (again : QueryText other text) : other = raw := by
  obtain ⟨body, declared, atoms⟩ := queryText_iff.1 derived
  obtain ⟨body', declared', atoms'⟩ := queryText_iff.1 again
  rw [declared] at declared'
  obtain ⟨sameVars, rfl⟩ : raw.vars = other.vars ∧ body = body' := by simpa using declared'
  rw [atoms] at atoms'
  obtain ⟨vars, rawAtoms⟩ := raw
  obtain ⟨vars', otherAtoms⟩ := other
  cases sameVars
  cases atoms'
  rfl

/-! ## The screen -/

theorem QueryText.balanced {raw : RawQuery} {text : Chars} (derived : QueryText raw text) :
    Balanced text := by
  have ofAtoms {atoms : List RawAtom} {text : Chars} (written : ListText AtomText atoms text) :
      Balanced text := ListText.balanced (written.imp fun _ _ _ _ isAtom => isAtom.balanced)
  cases derived with
  | ground atoms => exact ofAtoms atoms
  | declared vars bar atoms =>
    have ofVars := ListText.balanced (vars.imp fun _ _ _ _ name => name.balanced plain_ident)
    have ofBar := balanced_of_no_parens
      (bar.forall_mem (fun _ => not_paren_of_isWhitespace) (by simp))
    exact ofVars.append (ofBar.append (ofAtoms atoms))

/-- Every query has an atom. -/
theorem QueryText.mem_opening {raw : RawQuery} {text : Chars} (derived : QueryText raw text) :
    '(' ∈ text := by
  cases derived with
  | ground atoms =>
    obtain ⟨first, -⟩ := atoms
    simp [first.mem_opening]
  | declared _ _ atoms =>
    obtain ⟨first, -⟩ := atoms
    simp [first.mem_opening]

end Text

namespace Query

open Text

theorem parse_of_queryText {raw : RawQuery} {written : String}
    (derived : QueryText raw written.toList) :
    parse written =
      (make raw.vars (raw.atoms.map (RawAtom.resolve raw.vars))).mapError .invalid := by
  have passed := screen_eq_ok derived.balanced derived.mem_opening (by decide)
  obtain ⟨body, declared, atoms⟩ := queryText_iff.1 derived
  simp only [parse, passed, declared, atoms, bind, Except.bind]
  cases make raw.vars (raw.atoms.map (RawAtom.resolve raw.vars)) <;> rfl

theorem parse_of_not_queryText {written : String}
    (underived : ∀ raw, ¬ QueryText raw written.toList) :
    parse written = .error .empty ∨
      (∃ offset, parse written = .error (.unbalancedParens offset)) ∨
      (∃ offset, parse written = .error (.multipleSeparators offset)) ∨
      ∃ offset expected, parse written = .error (.unexpected offset expected) := by
  cases screened : screen written.toList with
  | error error =>
    rcases screen_error screened with rfl | ⟨offset, rfl⟩
    · exact .inl (by simp only [parse, screened, bind, Except.bind])
    · exact .inr (.inl ⟨offset, by simp only [parse, screened, bind, Except.bind]⟩)
  | ok =>
    have unread {vars : List Name} {body : Chars}
        (declared : declarations written.toList = .ok (vars, body)) :
        ∃ offset, parse written = .error (.unexpected offset .atoms) := by
      cases atoms : complete (items Text.atom) body with
      | error stop =>
        exact ⟨_, by simp only [parse, screened, declared, atoms, bind, Except.bind]; rfl⟩
      | ok found =>
        exact absurd (queryText_iff.2 ⟨body, declared, atoms⟩) (underived ⟨vars, found⟩)
    rcases declarations_cases written.toList with
      ⟨-, whole⟩ | ⟨_, _, _, -, -, -, -, cut⟩ | ⟨_, _, rest, -, -, -, refused⟩ |
        ⟨front, _, stop, -, -, -, -, refused⟩
    · obtain ⟨offset, refused⟩ := unread whole
      exact .inr (.inr (.inr ⟨offset, .atoms, refused⟩))
    · obtain ⟨offset, refused⟩ := unread cut
      exact .inr (.inr (.inr ⟨offset, .atoms, refused⟩))
    · exact .inr (.inr (.inl ⟨offset written.toList ('|' :: rest),
        by simp only [parse, screened, refused, bind, Except.bind]⟩))
    · exact .inr (.inr (.inr ⟨offset front stop, .variables,
        by simp only [parse, screened, refused, bind, Except.bind]⟩))

/-- **A text that derives from the grammar, which it does with one pair of lists
only, is read as the query of those lists; any other text is refused for its
characters.** The lists may be refused too, and then as `Query.make` does. -/
theorem parse_eq_derived (written : String) :
    (∃ raw, QueryText raw written.toList ∧
      (∀ other, QueryText other written.toList → other = raw) ∧
      parse written =
        (make raw.vars (raw.atoms.map (RawAtom.resolve raw.vars))).mapError .invalid) ∨
    ((∀ raw, ¬ QueryText raw written.toList) ∧
      (parse written = .error .empty ∨
        (∃ offset, parse written = .error (.unbalancedParens offset)) ∨
        (∃ offset, parse written = .error (.multipleSeparators offset)) ∨
        ∃ offset expected, parse written = .error (.unexpected offset expected))) := by
  by_cases derivable : ∃ raw, QueryText raw written.toList
  · obtain ⟨raw, derived⟩ := derivable
    exact .inl ⟨raw, derived, fun _ => derived.unique, parse_of_queryText derived⟩
  · have underived := not_exists.1 derivable
    exact .inr ⟨underived, parse_of_not_queryText underived⟩

/-- A comma with no atom behind it is no part of the list. -/
example : parse " x | R ( x ) , " = .error (.unexpected 13 .atoms) := by cbv

end Query

end SafePlan
