/-
# SafePlan.Proofs.FormulaGrammar — which texts are formulas

A formula is written as a word and what it is applied to. Six words are keywords
and say which operator follows; any other identifier is a relation. A keyword
may still be the name of a term or of a bound variable, since only the place of
a word decides.

The grammar nests, and so does the reader: its depth is bounded by the length of
the text, and each level of a derivation takes at least one character of it
(`reads_formula`). What has been read is then told apart into variables and
constants; `RawFormula.Means` is that rule, as a relation between what is written
and the formula that is meant.
-/
import Mathlib.Data.List.Induction
import SafePlan.Text.FormulaText
import SafePlan.Proofs.Reading

set_option autoImplicit false

namespace SafePlan

/-! ## Keywords -/

namespace Keyword

def word : Keyword → Name
  | .truth => "true"
  | .not => "not"
  | .and => "and"
  | .or => "or"
  | .exist => "exist"
  | .forAll => "forall"

theorem ofName?_word (keyword : Keyword) : ofName? keyword.word = some keyword := by
  cases keyword <;> rfl

theorem ofName?_eq_some_iff {name : Name} {keyword : Keyword} :
    ofName? name = some keyword ↔ name = keyword.word := by
  constructor
  · intro found
    unfold ofName? at found
    grind [word]
  · rintro rfl
    exact ofName?_word keyword

theorem ofName?_eq_none_iff {name : Name} :
    ofName? name = none ↔ ∀ keyword : Keyword, name ≠ keyword.word := by
  simp only [Option.eq_none_iff_forall_ne_some, ne_eq, ofName?_eq_some_iff]

end Keyword

/-! ## Operators -/

/-- Induction on what is written: `and` and `or` give the hypothesis for every
operand. -/
@[elab_as_elim, induction_eliminator]
theorem RawFormula.induction {motive : RawFormula → Prop} (truth : motive .truth)
    (atom : ∀ a, motive (.atom a)) (not : ∀ f, motive f → motive (.not f))
    (and : ∀ first others, motive first → (∀ f ∈ others, motive f) → motive (.and first others))
    (or : ∀ first others, motive first → (∀ f ∈ others, motive f) → motive (.or first others))
    (exist : ∀ x f, motive f → motive (.exist x f))
    (forAll : ∀ x f, motive f → motive (.forAll x f)) (f : RawFormula) : motive f :=
  @RawFormula.rec motive (fun operands => ∀ f ∈ operands, motive f) truth atom not and or exist
    forAll (by simp) (fun f rest here later => by simpa using ⟨here, later⟩) f

/-- A connective: its keyword, what is written with it and what is meant. -/
inductive Connective :
    Keyword → (RawFormula → List RawFormula → RawFormula) → (Formula → Formula → Formula) → Prop
  | and : Connective .and .and .and
  | or : Connective .or .or .or

/-- A quantifier: its keyword, what is written with it and what is meant. -/
inductive Quantifier :
    Keyword → (Name → RawFormula → RawFormula) → (Name → Formula → Formula) → Prop
  | exist : Quantifier .exist .exist .exist
  | forAll : Quantifier .forAll .forAll .forAll

/-! ## The grammar and its meaning -/

namespace Text

/-- A formula: `true`, an atom, `not(f)`, `and(f, g, h)` or `exist(x, f)`. -/
inductive FormulaText : RawFormula → Chars → Prop
  | truth {word : Chars} : Token Keyword.truth.word.toList word → FormulaText .truth word
  | atom {a : RawAtom} {text : Chars} :
      AtomText a text → (∀ keyword : Keyword, a.relation ≠ keyword.word) →
      FormulaText (.atom a) text
  | not {f : RawFormula} {word opening inner closing : Chars} :
      Token Keyword.not.word.toList word → Token ['('] opening → FormulaText f inner →
      Token [')'] closing → FormulaText (.not f) (word ++ (opening ++ (inner ++ closing)))
  | joined {keyword : Keyword} {join : RawFormula → List RawFormula → RawFormula}
      {op : Formula → Formula → Formula} {first second : RawFormula} {later : List RawFormula}
      {word opening here more closing : Chars} :
      Connective keyword join op → Token keyword.word.toList word → Token ['('] opening →
      FormulaText first here → FurtherText FormulaText (second :: later) more →
      Token [')'] closing →
      FormulaText (join first (second :: later)) (word ++ (opening ++ ((here ++ more) ++ closing)))
  | bound {keyword : Keyword} {quantify : Name → RawFormula → RawFormula}
      {bind : Name → Formula → Formula} {x : Name} {f : RawFormula}
      {word opening name comma inner closing : Chars} :
      Quantifier keyword quantify bind → Token keyword.word.toList word → Token ['('] opening →
      IdentText x name → Token [','] comma → FormulaText f inner → Token [')'] closing →
      FormulaText (quantify x f) (word ++ (opening ++ ((name ++ (comma ++ inner)) ++ closing)))

end Text

/-- What a written formula means in the scope of the names bound around it. In
`and` and `or` each further operand is joined to all before it; the name of a
term is a variable exactly in the scope of a quantifier of that name. -/
inductive RawFormula.Means : List Name → RawFormula → Formula → Prop
  | truth {scope : List Name} : Means scope .truth .truth
  | atom {scope : List Name} {relation : Name} {names : List Name} :
      Means scope (.atom ⟨relation, names⟩)
        (.atom ⟨relation, names.map fun name => if name ∈ scope then .var name else .const name⟩)
  | not {scope : List Name} {f : RawFormula} {f' : Formula} :
      Means scope f f' → Means scope (.not f) (.not f')
  | first {keyword : Keyword} {join : RawFormula → List RawFormula → RawFormula}
      {op : Formula → Formula → Formula} {scope : List Name} {f : RawFormula} {f' : Formula} :
      Connective keyword join op → Means scope f f' → Means scope (join f []) f'
  | last {keyword : Keyword} {join : RawFormula → List RawFormula → RawFormula}
      {op : Formula → Formula → Formula} {scope : List Name} {f last : RawFormula}
      {others : List RawFormula} {f' last' : Formula} :
      Connective keyword join op → Means scope (join f others) f' → Means scope last last' →
      Means scope (join f (others ++ [last])) (op f' last')
  | bound {keyword : Keyword} {quantify : Name → RawFormula → RawFormula}
      {bind : Name → Formula → Formula} {scope : List Name} {x : Name} {f : RawFormula}
      {f' : Formula} :
      Quantifier keyword quantify bind → Means (x :: scope) f f' →
      Means scope (quantify x f) (bind x f')

variable {keyword : Keyword} {join : RawFormula → List RawFormula → RawFormula}
  {op : Formula → Formula → Formula} {quantify : Name → RawFormula → RawFormula}
  {bind : Name → Formula → Formula}

theorem Connective.freeOccurrences (connective : Connective keyword join op) (f g : Formula) :
    (op f g).freeOccurrences = f.freeOccurrences ++ g.freeOccurrences := by
  cases connective <;> rfl

theorem Quantifier.freeOccurrences (quantifier : Quantifier keyword quantify bind) (x : Name)
    (f : Formula) : (bind x f).freeOccurrences = f.freeOccurrences.filter (· ≠ x) := by
  cases quantifier <;> rfl

namespace Text

/-! ## What is read derives -/

/-- Keywords are identifiers. -/
theorem identText_keyword (keyword : Keyword) {text : Chars}
    (written : Token keyword.word.toList text) : IdentText keyword.word text := by
  refine ⟨?_, written⟩
  cases keyword <;> exact ⟨_, _, rfl, by decide, List.all_eq_true.1 (by decide)⟩

theorem FormulaText.padded : Padded FormulaText := by
  rintro f before text after gapsBefore gapsAfter derived
  cases derived with
  | truth word => exact .truth (word.pad gapsBefore gapsAfter)
  | atom isAtom relation =>
    exact .atom (AtomText.padded _ _ _ _ gapsBefore gapsAfter isAtom) relation
  | not word opening inner closing =>
    simpa using FormulaText.not (word.pad gapsBefore gap_nil) opening inner
      (closing.pad gap_nil gapsAfter)
  | joined connective word opening here more closing =>
    simpa using FormulaText.joined connective (word.pad gapsBefore gap_nil) opening here more
      (closing.pad gap_nil gapsAfter)
  | bound quantifier word opening name comma inner closing =>
    simpa using FormulaText.bound quantifier (word.pad gapsBefore gap_nil) opening name comma inner
      (closing.pad gap_nil gapsAfter)

theorem Sound.operands {operand : Reader RawFormula} {writes : RawFormula → Chars → Prop}
    (join : RawFormula → List RawFormula → RawFormula) (sound : Sound operand writes) :
    Sound (operands join operand) fun f text => ∃ first second later here more,
      f = join first (second :: later) ∧ text = here ++ more ∧ writes first here ∧
        FurtherText writes (second :: later) more := by
  intro text f rest read
  simp only [Text.operands, bind_eq_ok_iff, pure, Except.pure] at read
  obtain ⟨⟨first, _⟩, readFirst, ⟨_, _⟩, readComma, ⟨second, _⟩, readSecond, ⟨later, _⟩, readLater,
    ⟨⟩⟩ := read
  obtain ⟨here, rfl, isFirst⟩ := sound _ _ _ readFirst
  obtain ⟨comma, rfl, isComma⟩ := sound_mark ',' _ _ _ readComma
  obtain ⟨there, rfl, isSecond⟩ := sound _ _ _ readSecond
  obtain ⟨more, rfl, areLater⟩ := sound.others _ _ _ readLater
  exact ⟨here ++ (comma ++ (there ++ more)), by simp, first, second, later, here, _, rfl, rfl,
    isFirst, .next isComma isSecond areLater⟩

theorem Sound.binding {body : Reader RawFormula} {writes : RawFormula → Chars → Prop}
    (quantify : Name → RawFormula → RawFormula) (sound : Sound body writes) :
    Sound (binding quantify body) fun f text => ∃ x g name comma inner,
      f = quantify x g ∧ text = name ++ (comma ++ inner) ∧ IdentText x name ∧
        Token [','] comma ∧ writes g inner := by
  intro text f rest read
  simp only [Text.binding, bind_eq_ok_iff, pure, Except.pure] at read
  obtain ⟨⟨x, _⟩, readName, ⟨_, _⟩, readComma, ⟨g, _⟩, readBody, ⟨⟩⟩ := read
  obtain ⟨name, rfl, isName⟩ := sound_word _ _ _ _ _ readName
  obtain ⟨comma, rfl, isComma⟩ := sound_mark ',' _ _ _ readComma
  obtain ⟨inner, rfl, isBody⟩ := sound _ _ _ readBody
  exact ⟨name ++ (comma ++ inner), by simp, x, g, name, comma, inner, rfl, rfl, isName, isComma,
    isBody⟩

theorem sound_joined {inner : Reader RawFormula} (sound : Sound inner FormulaText)
    (connective : Connective keyword join op) {word : Chars}
    (isWord : Token keyword.word.toList word) :
    Sound (enclosed (operands join inner)) fun f text => FormulaText f (word ++ text) := by
  intro text f rest read
  obtain ⟨_, rfl, ⟨opening, ⟨_, _, _, _, _, rfl, rfl, here, more⟩, closing⟩⟩ :=
    (sound.operands _).enclosed _ _ _ read
  exact ⟨_, rfl, .joined connective isWord opening here more closing⟩

theorem sound_bound {inner : Reader RawFormula} (sound : Sound inner FormulaText)
    (quantifier : Quantifier keyword quantify bind) {word : Chars}
    (isWord : Token keyword.word.toList word) :
    Sound (enclosed (binding quantify inner)) fun f text => FormulaText f (word ++ text) := by
  intro text f rest read
  obtain ⟨_, rfl, ⟨opening, ⟨_, _, _, _, _, rfl, rfl, name, comma, within⟩, closing⟩⟩ :=
    (sound.binding _).enclosed _ _ _ read
  exact ⟨_, rfl, .bound quantifier isWord opening name comma within closing⟩

theorem sound_behindWord {inner : Reader RawFormula} (sound : Sound inner FormulaText)
    {name : Name} {word : Chars} (isWord : IdentText name word) :
    Sound (behindWord inner name) fun f text => FormulaText f (word ++ text) := by
  intro text f rest read
  cases found : Keyword.ofName? name with
  | none =>
    simp only [behindWord, found] at read
    obtain ⟨terms, rfl, ⟨relation, names⟩, rfl, names', same, areTerms⟩ :=
      ((sound_word _ _).items?.enclosed.mapped (RawAtom.mk name)).mapped RawFormula.atom _ _ _ read
    cases same
    exact ⟨terms, rfl, .atom (.applied isWord areTerms) (Keyword.ofName?_eq_none_iff.1 found)⟩
  | some keyword =>
    have token := isWord.2
    rw [Keyword.ofName?_eq_some_iff.1 found] at token
    simp only [behindWord, found] at read
    cases keyword with
    | truth =>
      cases read
      exact ⟨[], rfl, by simpa using FormulaText.truth token⟩
    | not =>
      obtain ⟨_, rfl, ⟨opening, ⟨g, rfl, within⟩, closing⟩⟩ := (sound.mapped _).enclosed _ _ _ read
      exact ⟨_, rfl, .not token opening within closing⟩
    | and => exact sound_joined sound .and token _ _ _ read
    | or => exact sound_joined sound .or token _ _ _ read
    | exist => exact sound_bound sound .exist token _ _ _ read
    | forAll => exact sound_bound sound .forAll token _ _ _ read

theorem sound_formula (depth : Nat) : Sound (formula depth) FormulaText := by
  induction depth with
  | zero =>
    intro text f rest read
    cases read
  | succ depth ih =>
    intro text f rest read
    simp only [formula, bind_eq_ok_iff] at read
    obtain ⟨⟨name, behind⟩, readWord, readBehind⟩ := read
    obtain ⟨word, rfl, isWord⟩ := sound_word _ _ _ _ _ readWord
    obtain ⟨taken, rfl, derived⟩ := sound_behindWord ih isWord _ _ _ readBehind
    exact ⟨word ++ taken, by simp, derived⟩

/-! ## What derives is read -/

theorem reads_operands {operand : Reader RawFormula}
    (join : RawFormula → List RawFormula → RawFormula) {first second : RawFormula}
    {later : List RawFormula} {here more : Chars} (isFirst : Reads [',', ')'] operand first here)
    (areOthers : FurtherText (Reads [',', ')'] operand) (second :: later) more) :
    Reads [')'] (operands join operand) (join first (second :: later)) (here ++ more) := by
  obtain _ | @⟨_, _, comma, there, rest, isComma, isSecond, areLater⟩ := areOthers
  intro before behind gaps ends
  obtain ⟨_, gapsFirst, readFirst⟩ := isFirst before (comma ++ (there ++ (rest ++ behind))) gaps
    ((isComma.before (by decide) _).mono (by simp))
  obtain ⟨_, gapsComma, readComma⟩ :=
    reads_mark (by decide) isComma _ (there ++ (rest ++ behind)) gapsFirst
  obtain ⟨_, gapsSecond, readSecond⟩ := isSecond _ (rest ++ behind) gapsComma (areLater.before ends)
  obtain ⟨after, gapsLater, readLater⟩ := reads_others areLater _ behind gapsSecond ends
  refine ⟨after, gapsLater, ?_⟩
  simp only [List.append_assoc] at readFirst readComma readSecond readLater ⊢
  simp only [operands, bind, Except.bind, pure, Except.pure, readFirst, readComma, readSecond,
    readLater]

theorem reads_binding {body : Reader RawFormula} (quantify : Name → RawFormula → RawFormula)
    {x : Name} {f : RawFormula} {name comma inner : Chars} (isName : IdentText x name)
    (isComma : Token [','] comma) (isBody : Reads [')'] body f inner) :
    Reads [')'] (binding quantify body) (quantify x f) (name ++ (comma ++ inner)) := by
  intro before behind gaps ends
  obtain ⟨_, gapsName, readName⟩ := reads_ident isName before (comma ++ (inner ++ behind)) gaps
    ((isComma.before (by decide) _).mono (by simp))
  obtain ⟨_, gapsComma, readComma⟩ := reads_mark (by decide) isComma _ (inner ++ behind) gapsName
  obtain ⟨after, gapsBody, readBody⟩ := isBody _ behind gapsComma ends
  refine ⟨after, gapsBody, ?_⟩
  simp only [List.append_assoc] at readName readComma readBody ⊢
  simp only [binding, bind, Except.bind, pure, Except.pure, readName, readComma, readBody]

/-- A word and what stands behind it. -/
theorem reads_formula_succ {depth : Nat} {name : Name} {f : RawFormula} {word text : Chars}
    (isWord : IdentText name word)
    (before : ∀ rest, Before [',', ')'] rest → Before allMarks (text ++ rest))
    (behind : Reads [',', ')'] (behindWord (formula depth) name) f text) :
    Reads [',', ')'] (formula (depth + 1)) f (word ++ text) := by
  intro front rest gaps ends
  obtain ⟨_, gapsWord, readWord⟩ := reads_ident isWord front (text ++ rest) gaps (before rest ends)
  obtain ⟨after, gapsBehind, readBehind⟩ := behind _ rest gapsWord ends
  refine ⟨after, gapsBehind, ?_⟩
  simp only [List.append_assoc] at readWord readBehind ⊢
  simp only [formula, bind, Except.bind, readWord, readBehind]

/-- A keyword and what it encloses. -/
theorem reads_formula_enclosed (keyword : Keyword) {depth : Nat} {inner : Reader RawFormula}
    {f : RawFormula} {word opening text closing : Chars}
    (behind : behindWord (formula depth) keyword.word = enclosed inner)
    (isWord : Token keyword.word.toList word) (isOpening : Token ['('] opening)
    (isInner : Reads [')'] inner f text) (isClosing : Token [')'] closing) :
    Reads [',', ')'] (formula (depth + 1)) f (word ++ (opening ++ (text ++ closing))) := by
  have isEnclosed : EnclosedText (Reads [')'] inner) f (opening ++ (text ++ closing)) :=
    .parens isOpening isInner isClosing
  refine reads_formula_succ (identText_keyword keyword isWord)
    (fun rest _ => isEnclosed.before rest) ?_
  rw [behind]
  exact reads_enclosed isEnclosed

theorem behindWord_joined (connective : Connective keyword join op) (inner : Reader RawFormula) :
    behindWord inner keyword.word = enclosed (operands join inner) := by
  cases connective <;> rfl

theorem behindWord_bound (quantifier : Quantifier keyword quantify bind)
    (inner : Reader RawFormula) :
    behindWord inner keyword.word = enclosed (binding quantify inner) := by
  cases quantifier <;> rfl

/-- Some character is not blank: a parenthesis, or a letter of `true`. -/
theorem FormulaText.exists_visible {f : RawFormula} {text : Chars} (derived : FormulaText f text) :
    ∃ c ∈ text, isBlank c = false := by
  cases derived with
  | truth word => exact ⟨'t', word.mem (by decide), by decide⟩
  | atom isAtom _ => exact ⟨'(', isAtom.mem_opening, by decide⟩
  | not _ opening | joined _ _ opening | bound _ _ opening =>
    have listed := opening.mem (c := '(') (by simp)
    exact ⟨'(', by simp [listed], by decide⟩

/-- **Every derivation is read**, with the length of its text as depth. -/
theorem reads_formula {depth : Nat} {f : RawFormula} {text : Chars} (derived : FormulaText f text)
    (fits : text.length ≤ depth) : Reads [',', ')'] (formula depth) f text := by
  induction depth generalizing f text with
  | zero =>
    obtain ⟨c, listed, -⟩ := derived.exists_visible
    simp [List.length_eq_zero_iff.1 (Nat.le_zero.1 fits)] at listed
  | succ depth ih =>
    -- what stands inside the parentheses is shorter than the whole
    have nested {g : RawFormula} {inner : Chars} (within : FormulaText g inner)
        (shorter : inner.length < text.length) : Reads [',', ')'] (formula depth) g inner :=
      ih within (by omega)
    cases derived with
    | truth word =>
      have behind : Reads [',', ')'] (behindWord (formula depth) "true") .truth [] :=
        fun before rest gaps _ => ⟨before, gaps, by simp [behindWord, Keyword.ofName?]⟩
      simpa using reads_formula_succ (identText_keyword .truth word)
        (fun rest ends => ends.mono (by simp)) behind
    | @atom a text isAtom relation =>
      obtain ⟨isName, areTerms⟩ := isAtom
      refine reads_formula_succ isName (fun rest _ => areTerms.before rest) ?_
      rw [behindWord, Keyword.ofName?_eq_none_iff.2 relation]
      exact (reads_arguments _ areTerms).mapped RawFormula.atom
    | not word opening inner closing =>
      have := opening.length_pos
      simp only [List.length_append] at nested
      exact reads_formula_enclosed .not rfl word opening
        (((nested inner (by omega)).mono (by simp)).mapped RawFormula.not) closing
    | joined connective word opening here more closing =>
      have := opening.length_pos
      simp only [List.length_append] at nested
      exact reads_formula_enclosed _ (behindWord_joined connective _) word opening
        (reads_operands _ (nested here (by omega))
          (more.imp fun g _ _ shorter within => nested within (by omega))) closing
    | bound quantifier word opening name comma inner closing =>
      have := opening.length_pos
      simp only [List.length_append] at nested
      exact reads_formula_enclosed _ (behindWord_bound quantifier _) word opening
        (reads_binding _ name comma ((nested inner (by omega)).mono (by simp))) closing

theorem FormulaText.balanced {f : RawFormula} {text : Chars} (derived : FormulaText f text) :
    Balanced text := by
  have keyword (k : Keyword) {word : Chars} (written : Token k.word.toList word) : Balanced word :=
    (identText_keyword k written).balanced plain_ident
  -- on the length of the text, since the operands of a connective are a list of texts
  induction size : text.length using Nat.strongRecOn generalizing f text with
  | ind size ih =>
    have nested {g : RawFormula} {inner : Chars} (within : FormulaText g inner)
        (shorter : inner.length < text.length) : Balanced inner :=
      ih inner.length (by omega) within rfl
    cases derived with
    | truth word => exact keyword .truth word
    | atom isAtom _ => exact isAtom.balanced
    | not word opening inner closing =>
      have := opening.length_pos
      simp only [List.length_append] at nested
      exact (keyword .not word).append (balanced_parens opening (nested inner (by omega)) closing)
    | joined connective word opening here more closing =>
      have := opening.length_pos
      simp only [List.length_append] at nested
      have operands := FurtherText.balanced
        (more.imp fun _ _ _ shorter within => nested within (by omega))
      exact (keyword _ word).append
        (balanced_parens opening ((nested here (by omega)).append operands) closing)
    | bound quantifier word opening name comma inner closing =>
      have := opening.length_pos
      simp only [List.length_append] at nested
      exact (keyword _ word).append (balanced_parens opening ((name.balanced plain_ident).append
        (comma.balanced_comma.append (nested inner (by omega)))) closing)

theorem complete_formula_eq_ok_iff {f : RawFormula} {text : Chars} :
    complete (formula text.length) text = .ok f ↔ FormulaText f text :=
  complete_eq_ok_iff (sound_formula text.length) FormulaText.padded fun derived =>
    (reads_formula derived (Nat.le_refl _)).mono (by simp)

end Text

/-! ## What is meant -/

namespace RawFormula

theorem resolveAll_eq_map (scope : List Name) (operands : List RawFormula) :
    resolveAll scope operands = operands.map (resolve scope) := by
  induction operands with
  | nil => rfl
  | cons f rest ih => rw [resolveAll, ih, List.map_cons]

theorem resolve_joined (connective : Connective keyword join op) (scope : List Name)
    (first : RawFormula) (others : List RawFormula) :
    (join first others).resolve scope
      = (others.map (resolve scope)).foldl op (first.resolve scope) := by
  cases connective <;> rw [resolve, resolveAll_eq_map]

theorem resolve_bound (quantifier : Quantifier keyword quantify bind) (scope : List Name)
    (x : Name) (f : RawFormula) :
    (quantify x f).resolve scope = bind x (f.resolve (x :: scope)) := by
  cases quantifier <;> rw [resolve]

/-- The operands are joined from the left, so the last one is taken off first. -/
theorem means_joined (connective : Connective keyword join op) {scope : List Name}
    {first : RawFormula} {others : List RawFormula}
    (meansFirst : first.Means scope (first.resolve scope))
    (meansOthers : ∀ f ∈ others, f.Means scope (f.resolve scope)) :
    (join first others).Means scope ((join first others).resolve scope) := by
  induction others using List.reverseRecOn with
  | nil =>
    rw [resolve_joined connective]
    exact .first connective meansFirst
  | append_singleton others last ih =>
    have before := ih fun f listed => meansOthers f (by simp [listed])
    rw [resolve_joined connective] at before ⊢
    rw [List.map_append, List.foldl_append]
    exact .last connective before (meansOthers last (by simp))

theorem means_resolve (scope : List Name) (f : RawFormula) : f.Means scope (f.resolve scope) := by
  induction f generalizing scope with
  | truth => exact .truth
  | atom a => exact .atom
  | not f ih => exact .not (ih scope)
  | and first others ihFirst ihOthers =>
    exact means_joined .and (ihFirst scope) fun f listed => ihOthers f listed scope
  | or first others ihFirst ihOthers =>
    exact means_joined .or (ihFirst scope) fun f listed => ihOthers f listed scope
  | exist x f ih => exact .bound .exist (ih (x :: scope))
  | forAll x f ih => exact .bound .forAll (ih (x :: scope))

/-- What is meant is one formula, and the one that names are resolved to. -/
theorem means_iff {scope : List Name} {f : RawFormula} {f' : Formula} :
    f.Means scope f' ↔ f' = f.resolve scope := by
  constructor
  · intro means
    induction means with
    | truth => rfl
    | atom => rfl
    | not _ ih => rw [ih, resolve]
    | first connective _ ih => rw [ih, resolve_joined connective]; rfl
    | last connective _ _ ih ihLast =>
      rw [ih, ihLast, resolve_joined connective, resolve_joined connective, List.map_append,
        List.foldl_append]
      rfl
    | bound quantifier _ ih => rw [ih, resolve_bound quantifier]
  · rintro rfl
    exact means_resolve scope f

/-- Only the names of the scope occur free in what is meant. -/
theorem Means.mem_scope {scope : List Name} {f : RawFormula} {f' : Formula}
    (means : Means scope f f') : ∀ x ∈ f'.freeOccurrences, x ∈ scope := by
  induction means with
  | truth => simp [Formula.freeOccurrences]
  | atom =>
    intro x free
    simp only [Formula.freeOccurrences, Atom.vars, List.mem_filterMap, List.mem_map] at free
    obtain ⟨term, ⟨name, -, rfl⟩, isVar⟩ := free
    split at isVar
    · rename_i inScope
      cases isVar
      exact inScope
    · cases isVar
  | not _ ih => simpa [Formula.freeOccurrences] using ih
  | first _ _ ih => exact ih
  | last connective _ _ ih ihLast =>
    intro x free
    rw [connective.freeOccurrences] at free
    rcases List.mem_append.1 free with before | last
    · exact ih x before
    · exact ihLast x last
  | bound quantifier _ ih =>
    intro x free
    rw [quantifier.freeOccurrences] at free
    obtain ⟨inside, notBound⟩ := List.mem_filter.1 free
    exact (List.mem_cons.1 (ih x inside)).resolve_left (by simpa using notBound)

theorem Means.isClosed {f : RawFormula} {f' : Formula} (means : Means [] f f') :
    f'.isClosed = true := by
  rw [Formula.isClosed, List.isEmpty_iff, List.eq_nil_iff_forall_not_mem]
  exact fun x free => List.not_mem_nil (means.mem_scope x free)

end RawFormula

namespace Formula

open Text

theorem parse_of_formulaText {raw : RawFormula} {written : String}
    (derived : FormulaText raw written.toList) : parse written = .ok (raw.resolve []) := by
  obtain ⟨c, listed, visible⟩ := derived.exists_visible
  have passed := screen_eq_ok derived.balanced listed visible
  simp only [parse, passed, complete_formula_eq_ok_iff.2 derived, bind, Except.bind]
  rfl

theorem parse_of_not_formulaText {written : String}
    (underived : ∀ raw, ¬ FormulaText raw written.toList) :
    parse written = .error .empty ∨
      (∃ offset, parse written = .error (.unbalancedParens offset)) ∨
      ∃ offset, parse written = .error (.unexpected offset .formula) := by
  simp only [parse, bind, Except.bind]
  cases screened : screen written.toList with
  | error error =>
    rcases screen_error screened with rfl | ⟨offset, rfl⟩
    · exact .inl rfl
    · exact .inr (.inl ⟨offset, rfl⟩)
  | ok =>
    cases read : complete (Text.formula written.toList.length) written.toList with
    | error stop => exact .inr (.inr ⟨_, rfl⟩)
    | ok raw => exact absurd (complete_formula_eq_ok_iff.1 read) (underived raw)

/-- **A text that derives from the grammar, which it does in one way only, is
read as the formula that is meant, and that is closed; any other text is
refused for its characters.** -/
theorem parse_eq_meant (written : String) :
    (∃ raw f, FormulaText raw written.toList ∧
      (∀ other, FormulaText other written.toList → other = raw) ∧
      parse written = .ok f ∧ (∀ g, raw.Means [] g ↔ g = f) ∧ f.isClosed = true) ∨
    ((∀ raw, ¬ FormulaText raw written.toList) ∧
      (parse written = .error .empty ∨
        (∃ offset, parse written = .error (.unbalancedParens offset)) ∨
        ∃ offset, parse written = .error (.unexpected offset .formula))) := by
  by_cases derivable : ∃ raw, FormulaText raw written.toList
  · obtain ⟨raw, derived⟩ := derivable
    refine .inl ⟨raw, raw.resolve [], derived, fun other again => ?_, parse_of_formulaText derived,
      fun _ => RawFormula.means_iff, (raw.means_resolve []).isClosed⟩
    have read := complete_formula_eq_ok_iff.2 derived
    rw [complete_formula_eq_ok_iff.2 again] at read
    exact Except.ok.inj read
  · have underived := not_exists.1 derivable
    exact .inr ⟨underived, parse_of_not_formulaText underived⟩

/-- Keywords are names of terms and of bound variables like any others. -/
example : parse "exist(not, R(not, true))"
    = .ok (.exist "not" (.atom ⟨"R", [.var "not", .const "true"]⟩)) := by cbv

end Formula

end SafePlan
