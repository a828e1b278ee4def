/-
# SafePlan.Proofs.Viability — a reader stops where it could still go on

Where a reader stops, what it has read up to there is the beginning of something written:
some continuation of it writes a value (`Viable`). It is shown of each reader from those it
is made of (`Stops`). One that stops inside another has the rest of the grammar's rule as
its continuation, and for that every rule needs one text that writes a value: `()` for
terms, `true` for a formula, `x` for a name. A list that gives back a comma does not stop
there; what stops behind it stops before the comma, where the list is whole.

So a text that is not read to its end is viable up to the place where it fails
(`viable_of_complete`).
-/
import SafePlan.Proofs.FormulaGrammar

set_option autoImplicit false

namespace SafePlan

namespace Text

variable {α β : Type} {writes : α → Chars → Prop} {reader : Reader α}

/-- Some continuation of the text writes a value. -/
def Viable (writes : α → Chars → Prop) (before : Chars) : Prop :=
  ∃ more a, writes a (before ++ more)

/-- What is read before the reader stops is viable. -/
def Stops (reader : Reader α) (writes : α → Chars → Prop) : Prop :=
  ∀ text stop, reader text = .error stop → ∃ before, text = before ++ stop ∧ Viable writes before

theorem Stops.imp {writes' : α → Chars → Prop} (stops : Stops reader writes)
    (imp : ∀ a text, writes a text → writes' a text) : Stops reader writes' := by
  intro text stop failed
  obtain ⟨before, cut, more, a, written⟩ := stops text stop failed
  exact ⟨before, cut, more, a, imp a _ written⟩

/-! ## Tokens -/

theorem stops_mark (c : Char) : Stops (mark c) fun _ => Token [c] := by
  intro text stop failed
  have gaps : skipGaps text = stop := by
    unfold mark at failed
    split at failed
    · rename_i nothing
      cases failed
      exact nothing
    · rename_i remaining
      split at failed
      · cases failed
      · cases failed
        exact remaining
  obtain ⟨gap, isGap, rfl⟩ := exists_gap gaps
  exact ⟨gap, rfl, [c], (), gap, [], isGap, gap_nil, by simp⟩

theorem stops_word {first later : Char → Bool} {c : Char} (starts : first c = true) :
    Stops (word first later) (WordText first later) := by
  intro text stop failed
  have gaps : skipGaps text = stop := by
    unfold word at failed
    split at failed
    · rename_i nothing
      cases failed
      exact nothing
    · rename_i remaining
      split at failed
      · cases failed
      · cases failed
        exact remaining
  obtain ⟨gap, isGap, rfl⟩ := exists_gap gaps
  exact ⟨gap, rfl, [c], String.ofList [c], ⟨c, [], by simp, starts, by simp⟩, gap, [], isGap,
    gap_nil, by simp⟩

/-! ## Readers of readers -/

theorem Stops.mapped (f : α → β) (stops : Stops reader writes) :
    Stops (mapped f reader) fun b text => ∃ a, f a = b ∧ writes a text := by
  intro text stop failed
  simp only [Text.mapped, bind_eq_error_iff, pure, Except.pure, reduceCtorEq, and_false,
    exists_false, or_false] at failed
  obtain ⟨before, rfl, more, a, written⟩ := stops _ _ failed
  exact ⟨before, rfl, more, f a, a, rfl, written⟩

theorem Stops.enclosed {inner : Reader α} (sound : Sound inner writes) (stops : Stops inner writes)
    {a : α} {text : Chars} (written : writes a text) :
    Stops (enclosed inner) (EnclosedText writes) := by
  intro whole stop failed
  simp only [Text.enclosed, bind_eq_error_iff, pure, Except.pure, reduceCtorEq, and_false,
    exists_false, or_false] at failed
  obtain opening | ⟨⟨_, _⟩, readOpening, within | ⟨⟨b, _⟩, readInner, closing⟩⟩ := failed
  · obtain ⟨before, rfl, more, _, isOpening⟩ := stops_mark '(' _ _ opening
    exact ⟨before, rfl, more ++ (text ++ [')']), a, by
      simpa using EnclosedText.parens isOpening written (token_self [')'])⟩
  · obtain ⟨opening, rfl, isOpening⟩ := sound_mark '(' _ _ _ readOpening
    obtain ⟨before, rfl, more, b, isInner⟩ := stops _ _ within
    exact ⟨opening ++ before, by simp, more ++ [')'], b, by
      simpa using EnclosedText.parens isOpening isInner (token_self [')'])⟩
  · obtain ⟨opening, rfl, isOpening⟩ := sound_mark '(' _ _ _ readOpening
    obtain ⟨inner, rfl, isInner⟩ := sound _ _ _ readInner
    obtain ⟨before, rfl, more, _, isClosing⟩ := stops_mark ')' _ _ closing
    exact ⟨opening ++ (inner ++ before), by simp, more, b, by
      simpa using EnclosedText.parens isOpening isInner isClosing⟩

/-- Further items never fail, so a list stops in its first item. -/
theorem Stops.items {item : Reader α} (stops : Stops item writes) :
    Stops (items item) (ListText writes) := by
  intro text stop failed
  simp only [Text.items, others, bind_eq_error_iff, pure, Except.pure, reduceCtorEq, and_false,
    exists_false, or_false] at failed
  obtain ⟨before, rfl, more, first, written⟩ := stops _ _ failed
  exact ⟨before, rfl, more, [first], by simpa using ListText.items written .none⟩

/-- A list that may be missing never fails. -/
theorem stops_items? (item : Reader α) (writes : List α → Chars → Prop) :
    Stops (items? item) writes := by
  intro text stop failed
  unfold Text.items? at failed
  split at failed <;> cases failed

/-! ## Atoms -/

theorem nothingText : OptionalText TermText [] [] := .nothing

theorem stops_arguments (relation : Name) :
    Stops (arguments relation) fun a text =>
      ∃ names, RawAtom.mk relation names = a ∧ EnclosedText (OptionalText TermText) names text :=
  Stops.mapped (RawAtom.mk relation)
    (Stops.enclosed (sound_word _ _).items? (stops_items? termName _) nothingText)

/-- A word and `()`. -/
theorem atomText_of_ident {relation : Name} {name : Chars} (isName : IdentText relation name) :
    AtomText ⟨relation, []⟩ (name ++ ['(', ')']) :=
  .applied isName (.parens (token_self ['(']) nothingText (token_self [')']))

theorem stops_ident : Stops ident IdentText :=
  stops_word (show isIdentStart 'x' = true by decide)

theorem stops_atom : Stops atom AtomText := by
  intro text stop failed
  simp only [atom, bind_eq_error_iff] at failed
  obtain inName | ⟨⟨relation, _⟩, readName, inTerms⟩ := failed
  · obtain ⟨before, rfl, more, relation, isName⟩ := stops_ident _ _ inName
    exact ⟨before, rfl, more ++ ['(', ')'], ⟨relation, []⟩, by
      simpa using atomText_of_ident isName⟩
  · obtain ⟨name, rfl, isName⟩ := sound_word _ _ _ _ _ readName
    obtain ⟨before, rfl, more, _, names, rfl, areTerms⟩ := stops_arguments _ _ _ inTerms
    exact ⟨name ++ before, by simp, more, ⟨relation, names⟩, by
      simpa using AtomText.applied isName areTerms⟩

/-! ## Formulas -/

/-- `true` -/
theorem formulaText_truth : FormulaText .truth Keyword.truth.word.toList :=
  .truth (token_self _)

/-- `x` -/
theorem identText_x : IdentText "x" ['x'] :=
  ⟨⟨'x', [], rfl, by decide, by simp⟩, token_self _⟩

section Formulas

variable {inner : Reader RawFormula} {keyword : Keyword}
  {join : RawFormula → List RawFormula → RawFormula} {op : Formula → Formula → Formula}
  {quantify : Name → RawFormula → RawFormula} {bind : Name → Formula → Formula}

/-- What may stand between the parentheses behind a connective. -/
theorem Stops.operands (join : RawFormula → List RawFormula → RawFormula)
    (sound : Sound inner FormulaText) (stops : Stops inner FormulaText) :
    Stops (operands join inner) fun f text => ∃ first second later here more,
      f = join first (second :: later) ∧ text = here ++ more ∧ FormulaText first here ∧
        FurtherText FormulaText (second :: later) more := by
  intro text stop failed
  simp only [Text.operands, others, bind_eq_error_iff, pure, Except.pure, reduceCtorEq, and_false,
    exists_false, or_false] at failed
  obtain inFirst | ⟨⟨first, _⟩, readFirst, atComma | ⟨⟨_, _⟩, readComma, inSecond⟩⟩ := failed
  · obtain ⟨before, rfl, more, first, isFirst⟩ := stops _ _ inFirst
    have another := FurtherText.next (token_self [',']) formulaText_truth .none
    exact ⟨before, rfl, more ++ (',' :: Keyword.truth.word.toList), _, first, .truth, [],
      before ++ more, _, rfl, by simp, isFirst, another⟩
  · obtain ⟨here, rfl, isFirst⟩ := sound _ _ _ readFirst
    obtain ⟨before, rfl, more, _, isComma⟩ := stops_mark ',' _ _ atComma
    have another := FurtherText.next isComma formulaText_truth .none
    exact ⟨here ++ before, by simp, more ++ Keyword.truth.word.toList, _, first, .truth, [], here,
      _, rfl, by simp, isFirst, another⟩
  · obtain ⟨here, rfl, isFirst⟩ := sound _ _ _ readFirst
    obtain ⟨comma, rfl, isComma⟩ := sound_mark ',' _ _ _ readComma
    obtain ⟨before, rfl, more, second, isSecond⟩ := stops _ _ inSecond
    have another := FurtherText.next isComma isSecond .none
    exact ⟨here ++ (comma ++ before), by simp, more, _, first, second, [], here, _, rfl, by simp,
      isFirst, another⟩

/-- What may stand between the parentheses behind a quantifier. -/
theorem Stops.binding (quantify : Name → RawFormula → RawFormula)
    (stops : Stops inner FormulaText) :
    Stops (binding quantify inner) fun f text => ∃ x g name comma body,
      f = quantify x g ∧ text = name ++ (comma ++ body) ∧ IdentText x name ∧
        Token [','] comma ∧ FormulaText g body := by
  intro text stop failed
  simp only [Text.binding, bind_eq_error_iff, pure, Except.pure, reduceCtorEq, and_false,
    exists_false, or_false] at failed
  obtain inName | ⟨⟨x, _⟩, readName, atComma | ⟨⟨_, _⟩, readComma, inBody⟩⟩ := failed
  · obtain ⟨before, rfl, more, x, isName⟩ := stops_ident _ _ inName
    exact ⟨before, rfl, more ++ (',' :: Keyword.truth.word.toList), _, x, .truth, before ++ more,
      [','], _, rfl, by simp, isName, token_self [','], formulaText_truth⟩
  · obtain ⟨name, rfl, isName⟩ := sound_word _ _ _ _ _ readName
    obtain ⟨before, rfl, more, _, isComma⟩ := stops_mark ',' _ _ atComma
    exact ⟨name ++ before, by simp, more ++ Keyword.truth.word.toList, _, x, .truth, name,
      before ++ more, _, rfl, by simp, isName, isComma, formulaText_truth⟩
  · obtain ⟨name, rfl, isName⟩ := sound_word _ _ _ _ _ readName
    obtain ⟨comma, rfl, isComma⟩ := sound_mark ',' _ _ _ readComma
    obtain ⟨before, rfl, more, g, isBody⟩ := stops _ _ inBody
    exact ⟨name ++ (comma ++ before), by simp, more, _, x, g, name, comma, before ++ more, rfl,
      by simp, isName, isComma, isBody⟩

theorem stops_joined (sound : Sound inner FormulaText) (stops : Stops inner FormulaText)
    (connective : Connective keyword join op) {word : Chars}
    (isWord : Token keyword.word.toList word) :
    Stops (enclosed (operands join inner)) fun f text => FormulaText f (word ++ text) := by
  have another := FurtherText.next (token_self [',']) formulaText_truth .none
  refine (Stops.enclosed (sound.operands join) (Stops.operands join sound stops)
    ⟨.truth, .truth, [], _, _, rfl, rfl, formulaText_truth, another⟩).imp ?_
  rintro f text ⟨opening, ⟨_, _, _, _, _, rfl, rfl, here, more⟩, closing⟩
  exact .joined connective isWord opening here more closing

theorem stops_bound (sound : Sound inner FormulaText) (stops : Stops inner FormulaText)
    (quantifier : Quantifier keyword quantify bind) {word : Chars}
    (isWord : Token keyword.word.toList word) :
    Stops (enclosed (binding quantify inner)) fun f text => FormulaText f (word ++ text) := by
  refine (Stops.enclosed (sound.binding quantify) (Stops.binding quantify stops)
    ⟨"x", .truth, _, _, _, rfl, rfl, identText_x, token_self [','], formulaText_truth⟩).imp ?_
  rintro f text ⟨opening, ⟨_, _, _, _, _, rfl, rfl, name, comma, within⟩, closing⟩
  exact .bound quantifier isWord opening name comma within closing

theorem stops_behindWord (sound : Sound inner FormulaText) (stops : Stops inner FormulaText)
    {name : Name} {word : Chars} (isWord : IdentText name word) :
    Stops (behindWord inner name) fun f text => FormulaText f (word ++ text) := by
  cases found : Keyword.ofName? name with
  | none =>
    rw [behindWord, found]
    refine ((stops_arguments name).mapped RawFormula.atom).imp ?_
    rintro _ text ⟨_, rfl, names, rfl, areTerms⟩
    exact .atom (.applied isWord areTerms) (Keyword.ofName?_eq_none_iff.1 found)
  | some keyword =>
    have token := isWord.2
    rw [Keyword.ofName?_eq_some_iff.1 found] at token
    rw [behindWord, found]
    cases keyword with
    | truth =>
      intro text stop failed
      cases failed
    | not =>
      refine (Stops.enclosed (sound.mapped RawFormula.not) (stops.mapped RawFormula.not)
        ⟨.truth, rfl, formulaText_truth⟩).imp ?_
      rintro _ text ⟨opening, ⟨g, rfl, within⟩, closing⟩
      exact .not token opening within closing
    | and => exact stops_joined sound stops .and token
    | or => exact stops_joined sound stops .or token
    | exist => exact stops_bound sound stops .exist token
    | forAll => exact stops_bound sound stops .forAll token

/-- Every word begins a formula. -/
theorem exists_formulaText {name : Name} {word : Chars} (isWord : IdentText name word) :
    ∃ f behind, FormulaText f (word ++ behind) := by
  have opening := token_self ['(']
  have closing := token_self [')']
  cases found : Keyword.ofName? name with
  | none =>
    exact ⟨_, _, .atom (atomText_of_ident isWord) (Keyword.ofName?_eq_none_iff.1 found)⟩
  | some keyword =>
    have token := isWord.2
    rw [Keyword.ofName?_eq_some_iff.1 found] at token
    have comma := token_self [',']
    have another := FurtherText.next comma formulaText_truth .none
    cases keyword with
    | truth => exact ⟨.truth, [], by simpa using FormulaText.truth token⟩
    | not => exact ⟨_, _, .not token opening formulaText_truth closing⟩
    | and => exact ⟨_, _, .joined .and token opening formulaText_truth another closing⟩
    | or => exact ⟨_, _, .joined .or token opening formulaText_truth another closing⟩
    | exist => exact ⟨_, _, .bound .exist token opening identText_x comma formulaText_truth closing⟩
    | forAll => exact ⟨_, _, .bound .forAll token opening identText_x comma formulaText_truth closing⟩

theorem stops_formula (depth : Nat) : Stops (formula depth) FormulaText := by
  induction depth with
  | zero =>
    intro text stop failed
    cases failed
    exact ⟨[], rfl, _, .truth, formulaText_truth⟩
  | succ depth ih =>
    intro text stop failed
    simp only [formula, bind_eq_error_iff] at failed
    obtain inWord | ⟨⟨name, _⟩, readWord, behind⟩ := failed
    · obtain ⟨before, rfl, more, name, isWord⟩ := stops_ident _ _ inWord
      obtain ⟨f, behind, derived⟩ := exists_formulaText isWord
      exact ⟨before, rfl, more ++ behind, f, by simpa using derived⟩
    · obtain ⟨word, rfl, isWord⟩ := sound_word _ _ _ _ _ readWord
      obtain ⟨before, rfl, more, f, derived⟩ :=
        stops_behindWord (sound_formula depth) ih isWord _ _ behind
      exact ⟨word ++ before, by simp, more, f, by simpa using derived⟩

end Formulas

/-! ## Whole texts -/

/-- A text that is not read to its end is viable up to where it fails. -/
theorem viable_of_complete (sound : Sound reader writes) (stops : Stops reader writes)
    (padded : Padded writes) {text stop : Chars} (failed : complete reader text = .error stop) :
    ∃ before, text = before ++ stop ∧ Viable writes before := by
  simp only [complete, bind_eq_error_iff] at failed
  obtain within | ⟨⟨a, rest⟩, read, left⟩ := failed
  · exact stops text stop within
  · -- the value is whole, and something else stands behind it
    obtain ⟨taken, rfl, written⟩ := sound _ _ _ read
    cases remaining : skipGaps rest with
    | nil =>
      rw [remaining] at left
      cases left
    | cons c behind =>
      rw [remaining] at left
      cases left
      obtain ⟨gap, gaps, rfl⟩ := exists_gap remaining
      refine ⟨taken ++ gap, by simp, [], a, ?_⟩
      simpa using padded a [] taken gap gap_nil gaps written

end Text

end SafePlan
