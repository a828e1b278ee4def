/-
# SafePlan.Proofs.Grammar — written tokens, lists and atoms

The grammar tells which characters write a value: a relation between values and
texts, built from tokens that may have gaps on both sides. Queries and formulas
have its words, lists and atoms in common.

Two things follow from a derivation alone. No token is half of a pair of
parentheses, so what derives is `Balanced` and passes the screen; and a property
of texts that holds of items, of commas and of texts in sequence holds of lists
(`ListText.closed`).
-/
import Mathlib.Data.List.TakeWhile
import SafePlan.Text.QueryText

set_option autoImplicit false

namespace SafePlan.Text

variable {α : Type} {item item' : α → Chars → Prop}

/-! ## Gaps -/

/-- A run of gaps. -/
def Gap (text : Chars) : Prop := ∀ c ∈ text, c.isWhitespace = true

theorem gap_nil : Gap [] := by simp [Gap]

theorem Gap.append {first second : Chars} (left : Gap first) (right : Gap second) :
    Gap (first ++ second) := by
  intro c listed
  rcases List.mem_append.1 listed with here | there
  · exact left c here
  · exact right c there

theorem skipGaps_append {gap : Chars} (gaps : Gap gap) (rest : Chars) :
    skipGaps (gap ++ rest) = skipGaps rest :=
  List.dropWhile_append_of_pos gaps

theorem skipGaps_of_gap {gap : Chars} (gaps : Gap gap) : skipGaps gap = [] :=
  List.dropWhile_eq_nil_iff.2 gaps

theorem exists_gap {text rest : Chars} (skipped : skipGaps text = rest) :
    ∃ gap, Gap gap ∧ text = gap ++ rest := by
  subst skipped
  exact ⟨text.takeWhile Char.isWhitespace, fun _ => List.mem_takeWhile_imp,
    List.takeWhile_append_dropWhile.symm⟩

/-! ## The grammar -/

/-- One token, with gaps around it. -/
def Token (token text : Chars) : Prop :=
  ∃ before after, Gap before ∧ Gap after ∧ text = before ++ token ++ after

/-- One word, given by its first character and later ones. -/
def WordText (first later : Char → Bool) (name : Name) (text : Chars) : Prop :=
  (∃ c more, name.toList = c :: more ∧ first c = true ∧ ∀ d ∈ more, later d = true) ∧
    Token name.toList text

/-- An identifier, `[A-Za-z_][A-Za-z0-9_]*`. -/
abbrev IdentText : Name → Chars → Prop := WordText isIdentStart isIdentChar

/-- The name of a term, `[A-Za-z0-9_.-]+`. -/
abbrev TermText : Name → Chars → Prop := WordText isTermChar isTermChar

/-- Items with a comma before each. -/
inductive FurtherText (item : α → Chars → Prop) : List α → Chars → Prop
  | none : FurtherText item [] []
  | next {a : α} {later : List α} {comma text more : Chars} :
      Token [','] comma → item a text → FurtherText item later more →
      FurtherText item (a :: later) (comma ++ (text ++ more))

/-- Items with commas between them, at least one. -/
inductive ListText (item : α → Chars → Prop) : List α → Chars → Prop
  | items {first : α} {later : List α} {text more : Chars} :
      item first text → FurtherText item later more → ListText item (first :: later) (text ++ more)

/-- A list, or nothing at all. -/
inductive OptionalText (item : α → Chars → Prop) : List α → Chars → Prop
  | nothing : OptionalText item [] []
  | list {values : List α} {text : Chars} :
      ListText item values text → OptionalText item values text

/-- Something between parentheses. -/
inductive EnclosedText (inner : α → Chars → Prop) : α → Chars → Prop
  | parens {a : α} {opening text closing : Chars} :
      Token ['('] opening → inner a text → Token [')'] closing →
      EnclosedText inner a (opening ++ (text ++ closing))

/-- An atom, `R(a, b)` or `R()`. -/
inductive AtomText : RawAtom → Chars → Prop
  | applied {relation : Name} {names : List Name} {name terms : Chars} :
      IdentText relation name → EnclosedText (OptionalText TermText) names terms →
      AtomText ⟨relation, names⟩ (name ++ terms)

/-! ## Gaps around what is written -/

/-- Gaps may stand on both sides of what writes a value. -/
def Padded (writes : α → Chars → Prop) : Prop :=
  ∀ a before text after, Gap before → Gap after → writes a text →
    writes a (before ++ (text ++ after))

theorem token_self (token : Chars) : Token token token :=
  ⟨[], [], gap_nil, gap_nil, by simp⟩

theorem Token.pad {token before text after : Chars} (gapsBefore : Gap before)
    (gapsAfter : Gap after) (written : Token token text) :
    Token token (before ++ (text ++ after)) := by
  obtain ⟨front, back, gapsFront, gapsBack, rfl⟩ := written
  exact ⟨before ++ front, back ++ after, gapsBefore.append gapsFront, gapsBack.append gapsAfter,
    by simp⟩

theorem WordText.padded (first later : Char → Bool) : Padded (WordText first later) :=
  fun _ _ _ _ gapsBefore gapsAfter written => ⟨written.1, written.2.pad gapsBefore gapsAfter⟩

theorem FurtherText.append (padded : Padded item) {a : α}
    {later : List α} {text gap : Chars} (written : FurtherText item (a :: later) text)
    (gaps : Gap gap) : FurtherText item (a :: later) (text ++ gap) := by
  induction later generalizing a text with
  | nil =>
    obtain _ | ⟨comma, here, ⟨⟩⟩ := written
    simpa using FurtherText.next comma (padded _ [] _ gap gap_nil gaps here) .none
  | cons b later ih =>
    obtain _ | ⟨comma, here, more⟩ := written
    simpa using FurtherText.next comma here (ih more)

theorem ListText.padded (padded : Padded item) :
    Padded (ListText item) := by
  rintro values before text after gapsBefore gapsAfter ⟨here, more⟩
  cases more with
  | none => simpa using ListText.items (padded _ _ _ _ gapsBefore gapsAfter here) .none
  | next comma second later =>
    simpa using ListText.items (padded _ before _ [] gapsBefore gap_nil here)
      ((FurtherText.next comma second later).append padded gapsAfter)

theorem EnclosedText.padded (inner : α → Chars → Prop) : Padded (EnclosedText inner) := by
  rintro a before text after gapsBefore gapsAfter ⟨opening, within, closing⟩
  simpa using EnclosedText.parens (opening.pad gapsBefore gap_nil) within
    (closing.pad gap_nil gapsAfter)

theorem AtomText.padded : Padded AtomText := by
  rintro a before text after gapsBefore gapsAfter ⟨name, terms⟩
  simpa using AtomText.applied (WordText.padded _ _ _ before _ [] gapsBefore gap_nil name)
    (EnclosedText.padded _ _ [] _ after gap_nil gapsAfter terms)

/-! ## Items of a list -/

theorem Token.length_pos {c : Char} {text : Chars} (written : Token [c] text) :
    0 < text.length := by
  obtain ⟨before, after, -, -, rfl⟩ := written
  simp only [List.length_append, List.length_singleton]
  omega

/-- Each of the items comes with a comma. -/
theorem FurtherText.length_le {later : List α} {text : Chars}
    (written : FurtherText item later text) : later.length ≤ text.length := by
  induction written with
  | none => simp
  | next comma _ _ ih =>
    have := comma.length_pos
    simp only [List.length_cons, List.length_append]
    omega

theorem FurtherText.imp {later : List α} {text : Chars}
    (written : FurtherText item later text)
    (imp : ∀ a ∈ later, ∀ here, here.length < text.length → item a here → item' a here) :
    FurtherText item' later text := by
  induction written with
  | none => exact .none
  | @next a later comma here more isComma item_ _ ih =>
    have := isComma.length_pos
    simp only [List.length_append] at imp
    exact .next isComma (imp a (by simp) here (by omega) item_)
      (ih fun b listed there shorter => imp b (by simp [listed]) there (by omega))

theorem ListText.imp {values : List α} {text : Chars}
    (written : ListText item values text)
    (imp : ∀ a ∈ values, ∀ here, here.length ≤ text.length → item a here → item' a here) :
    ListText item' values text := by
  obtain @⟨first, later, here, more, readsHere, furtherMore⟩ := written
  simp only [List.length_append] at imp
  refine .items (imp first (by simp) here (by omega) readsHere)
    (furtherMore.imp fun b listed there shorter => imp b (by simp [listed]) there (by omega))

/-! ## Characters -/

theorem not_isTermChar_of_isWhitespace {c : Char} (gap : c.isWhitespace = true) :
    isTermChar c = false := by
  simp only [Char.isWhitespace, Bool.or_eq_true, decide_eq_true_eq] at gap
  rcases gap with ((rfl | rfl) | rfl) | rfl <;> decide

/-- Kinds of words in which all characters are term characters. -/
structure Plain (first later : Char → Bool) : Prop where
  first : ∀ c, first c = true → isTermChar c = true
  later : ∀ c, later c = true → isTermChar c = true

theorem plain_ident : Plain isIdentStart isIdentChar := by
  have later (c : Char) (continues : isIdentChar c = true) : isTermChar c = true := by
    simp [isTermChar, continues]
  refine ⟨fun c starts => later c ?_, later⟩
  simp only [isIdentStart, isIdentChar, Char.isAlphanum, Bool.or_eq_true] at starts ⊢
  exact starts.imp_left .inl

theorem plain_term : Plain isTermChar isTermChar := ⟨fun _ => id, fun _ => id⟩

/-- Characters of a token and of the gaps around it. -/
theorem Token.forall_mem {token text : Chars} {p : Char → Prop} (written : Token token text)
    (gaps : ∀ c, c.isWhitespace = true → p c) (inside : ∀ c ∈ token, p c) : ∀ c ∈ text, p c := by
  obtain ⟨before, after, gapsBefore, gapsAfter, rfl⟩ := written
  intro c listed
  simp only [List.mem_append] at listed
  rcases listed with (front | here) | back
  · exact gaps c (gapsBefore c front)
  · exact inside c here
  · exact gaps c (gapsAfter c back)

theorem WordText.forall_mem {first later : Char → Bool} (plain : Plain first later) {name : Name}
    {text : Chars} {p : Char → Prop} (written : WordText first later name text)
    (gaps : ∀ c, c.isWhitespace = true → p c) (inside : ∀ c, isTermChar c = true → p c) :
    ∀ c ∈ text, p c := by
  obtain ⟨⟨head, more, spelled, starts, continues⟩, token⟩ := written
  refine token.forall_mem gaps fun c listed => inside c ?_
  rw [spelled] at listed
  rcases List.mem_cons.1 listed with rfl | later
  · exact plain.first c starts
  · exact plain.later c (continues c later)

theorem Token.mem {token text : Chars} (written : Token token text) {c : Char}
    (inside : c ∈ token) : c ∈ text := by
  obtain ⟨before, after, -, -, rfl⟩ := written
  simp [inside]

theorem AtomText.mem_opening {a : RawAtom} {text : Chars} (written : AtomText a text) :
    '(' ∈ text := by
  obtain ⟨-, opening, -, -⟩ := written
  have here := opening.mem (c := '(') (by simp)
  simp [here]

/-- A property of texts that holds of commas, of every item and of texts in
sequence holds of lists. -/
theorem FurtherText.closed {later : List α} {text : Chars} {p : Chars → Prop} (nothing : p [])
    (sequence : ∀ front back, p front → p back → p (front ++ back))
    (comma : ∀ text, Token [','] text → p text) (written : FurtherText (fun _ => p) later text) :
    p text := by
  induction written with
  | none => exact nothing
  | next isComma here _ ih =>
    exact sequence _ _ (comma _ isComma) (sequence _ _ here ih)

theorem ListText.closed {values : List α} {text : Chars} {p : Chars → Prop} (nothing : p [])
    (sequence : ∀ front back, p front → p back → p (front ++ back))
    (comma : ∀ text, Token [','] text → p text) (written : ListText (fun _ => p) values text) :
    p text := by
  obtain ⟨here, more⟩ := written
  exact sequence _ _ here (more.closed nothing sequence comma)

/-! ## Parentheses -/

theorem unbalanced?_opening (opened : List Chars) (rest : Chars) :
    unbalanced? opened ('(' :: rest) = unbalanced? (('(' :: rest) :: opened) rest := by
  simp [unbalanced?]

theorem unbalanced?_closing (place : Chars) (opened : List Chars) (rest : Chars) :
    unbalanced? (place :: opened) (')' :: rest) = unbalanced? opened rest := by
  simp [unbalanced?]

theorem unbalanced?_of_ne {c : Char} (notOpening : c ≠ '(') (notClosing : c ≠ ')')
    (opened : List Chars) (rest : Chars) :
    unbalanced? opened (c :: rest) = unbalanced? opened rest := by
  simp [unbalanced?, notOpening, notClosing]

/-- A text in which every parenthesis has its partner: it leaves those open
before it as they are. -/
def Balanced (text : Chars) : Prop :=
  ∀ opened rest, unbalanced? opened (text ++ rest) = unbalanced? opened rest

theorem balanced_nil : Balanced [] := fun _ _ => rfl

theorem Balanced.append {front back : Chars} (first : Balanced front) (second : Balanced back) :
    Balanced (front ++ back) := by
  intro opened rest
  rw [List.append_assoc, first, second]

theorem balanced_of_no_parens {text : Chars} (others : ∀ c ∈ text, c ≠ '(' ∧ c ≠ ')') :
    Balanced text := by
  induction text with
  | nil => exact balanced_nil
  | cons c text ih =>
    intro opened rest
    have here := others c (by simp)
    rw [List.cons_append, unbalanced?_of_ne here.1 here.2]
    exact ih (fun d listed => others d (by simp [listed])) opened rest

theorem not_paren_of_isWhitespace {c : Char} (gap : c.isWhitespace = true) :
    c ≠ '(' ∧ c ≠ ')' := by
  constructor <;> rintro rfl <;> revert gap <;> decide

theorem Gap.balanced {gap : Chars} (gaps : Gap gap) : Balanced gap :=
  balanced_of_no_parens fun c listed => not_paren_of_isWhitespace (gaps c listed)

theorem WordText.balanced {first later : Char → Bool} (plain : Plain first later) {name : Name}
    {text : Chars} (written : WordText first later name text) : Balanced text := by
  refine balanced_of_no_parens
    (written.forall_mem plain (fun _ => not_paren_of_isWhitespace) fun c inside => ?_)
  constructor <;> rintro rfl <;> revert inside <;> decide

theorem Token.balanced_comma {comma : Chars} (written : Token [','] comma) : Balanced comma :=
  balanced_of_no_parens (written.forall_mem (fun _ => not_paren_of_isWhitespace) (by simp))

theorem FurtherText.balanced {later : List α} {text : Chars}
    (written : FurtherText (fun _ => Balanced) later text) : Balanced text :=
  written.closed balanced_nil (fun _ _ => .append) fun _ => Token.balanced_comma

theorem ListText.balanced {values : List α} {text : Chars}
    (written : ListText (fun _ => Balanced) values text) : Balanced text :=
  written.closed balanced_nil (fun _ _ => .append) fun _ => Token.balanced_comma

theorem balanced_parens {opening text closing : Chars} (isOpening : Token ['('] opening)
    (balanced : Balanced text) (isClosing : Token [')'] closing) :
    Balanced (opening ++ (text ++ closing)) := by
  obtain ⟨_, _, beforeOpening, afterOpening, rfl⟩ := isOpening
  obtain ⟨_, _, beforeClosing, afterClosing, rfl⟩ := isClosing
  intro opened rest
  simp only [List.append_assoc, List.cons_append, List.nil_append]
  rw [beforeOpening.balanced, unbalanced?_opening, afterOpening.balanced, balanced,
    beforeClosing.balanced, unbalanced?_closing, afterClosing.balanced]

theorem AtomText.balanced {a : RawAtom} {text : Chars} (written : AtomText a text) :
    Balanced text := by
  obtain ⟨name, opening, terms, closing⟩ := written
  refine (name.balanced plain_ident).append (balanced_parens opening ?_ closing)
  cases terms with
  | nothing => exact balanced_nil
  | list list => exact ListText.balanced (list.imp fun _ _ _ _ term => term.balanced plain_term)

theorem screen_eq_ok {text : Chars} (balanced : Balanced text) {c : Char} (listed : c ∈ text)
    (visible : isBlank c = false) : screen text = .ok () := by
  have notBlank : text.all isBlank = false := by simpa using ⟨c, listed, visible⟩
  have paired : unbalanced? [] text = none := by simpa [unbalanced?] using balanced [] []
  simp [screen, notBlank, paired]

theorem screen_error {text : Chars} {error : ParseError} (refused : screen text = .error error) :
    error = .empty ∨ ∃ offset, error = .unbalancedParens offset := by
  unfold screen at refused
  split at refused
  · cases refused
    exact .inl rfl
  · split at refused
    · cases refused
      exact .inr ⟨_, rfl⟩
    · cases refused

end SafePlan.Text
