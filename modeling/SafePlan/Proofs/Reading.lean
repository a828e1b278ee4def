/-
# SafePlan.Proofs.Reading — readers meet the grammar

A reader meets a relation of the grammar in two ways.

* `Sound`: what it takes off the front of a text writes the value it returns.
* `Reads`: from a text that writes a value it returns that value, whatever gaps
  stand before, as long as what comes behind cannot be taken for more of it.

The second needs to know what comes behind, because a word and a list are read
as far as they go. In the grammar that is always the end or a mark (`Before`),
and which marks depends on the reader only: any after a word, a closing
parenthesis after a list. A reader of both kinds is exactly its relation on
whole texts (`complete_eq_ok_iff`), and since it returns one value, a text
writes one value.
-/
import SafePlan.Proofs.Outcome
import SafePlan.Proofs.Grammar

set_option autoImplicit false

namespace SafePlan.Text

variable {α β : Type} {writes : α → Chars → Prop} {reader : Reader α} {marks : List Char}

/-! ## What is read writes the value -/

/-- What the reader takes off the front of a text writes the value it returns. -/
def Sound (reader : Reader α) (writes : α → Chars → Prop) : Prop :=
  ∀ text a rest, reader text = .ok (a, rest) → ∃ read, text = read ++ rest ∧ writes a read

theorem sound_mark (c : Char) : Sound (mark c) fun _ => Token [c] := by
  intro text _ rest read
  unfold mark at read
  split at read
  · cases read
  · rename_i head behind remaining
    split at read
    · rename_i same
      cases read
      obtain ⟨gap, gaps, rfl⟩ := exists_gap remaining
      exact ⟨gap ++ [c], by simp [same], gap, [], gaps, gap_nil, by simp⟩
    · cases read

theorem sound_word (first later : Char → Bool) :
    Sound (word first later) (WordText first later) := by
  intro text name rest read
  unfold word at read
  split at read
  · cases read
  · rename_i head behind remaining
    split at read
    · rename_i starts
      cases read
      obtain ⟨gap, gaps, rfl⟩ := exists_gap remaining
      refine ⟨gap ++ head :: behind.takeWhile later, ?_, ?_, gap, [], gaps, gap_nil, by simp⟩
      · simp
      · exact ⟨head, behind.takeWhile later, by simp, starts, fun _ => List.mem_takeWhile_imp⟩
    · cases read

theorem Sound.mapped (f : α → β)
    (sound : Sound reader writes) :
    Sound (mapped f reader) fun b text => ∃ a, f a = b ∧ writes a text := by
  intro text b rest read
  simp only [Text.mapped, bind_eq_ok_iff, pure, Except.pure] at read
  obtain ⟨⟨a, behind⟩, readA, ⟨⟩⟩ := read
  obtain ⟨taken, rfl, written⟩ := sound _ _ _ readA
  exact ⟨taken, rfl, a, rfl, written⟩

theorem Sound.enclosed {inner : Reader α} (sound : Sound inner writes) :
    Sound (enclosed inner) (EnclosedText writes) := by
  intro text a rest read
  simp only [Text.enclosed, bind_eq_ok_iff, pure, Except.pure] at read
  obtain ⟨⟨_, _⟩, readOpening, ⟨b, _⟩, readInner, ⟨_, _⟩, readClosing, ⟨⟩⟩ := read
  obtain ⟨opening, rfl, isOpening⟩ := sound_mark '(' _ _ _ readOpening
  obtain ⟨within, rfl, written⟩ := sound _ _ _ readInner
  obtain ⟨closing, rfl, isClosing⟩ := sound_mark ')' _ _ _ readClosing
  exact ⟨opening ++ (within ++ closing), by simp, .parens isOpening written isClosing⟩

theorem Sound.further {item : Reader α} (sound : Sound item writes)
    (limit : Nat) (text : Chars) :
    ∃ read, text = read ++ (further item limit text).2 ∧
      FurtherText writes (further item limit text).1 read := by
  induction limit generalizing text with
  | zero => exact ⟨[], rfl, .none⟩
  | succ limit ih =>
    rw [Text.further]
    split
    · exact ⟨[], rfl, .none⟩
    · rename_i afterComma readComma
      split
      · exact ⟨[], rfl, .none⟩
      · rename_i first rest readItem
        obtain ⟨comma, rfl, isComma⟩ := sound_mark ',' _ _ _ readComma
        obtain ⟨here, rfl, written⟩ := sound _ _ _ readItem
        obtain ⟨more, split, later⟩ := ih rest
        exact ⟨comma ++ (here ++ more), by simp [← split], .next isComma written later⟩

theorem Sound.others {item : Reader α} (sound : Sound item writes) :
    Sound (others item) (FurtherText writes) := by
  intro text later rest read
  have here := sound.further text.length text
  rwa [show Text.further item text.length text = (later, rest) from Except.ok.inj read] at here

theorem Sound.items {item : Reader α} (sound : Sound item writes) :
    Sound (items item) (ListText writes) := by
  intro text values rest read
  simp only [Text.items, bind_eq_ok_iff, pure, Except.pure] at read
  obtain ⟨⟨first, behind⟩, readFirst, ⟨later, behindLater⟩, readLater, ⟨⟩⟩ := read
  obtain ⟨here, rfl, written⟩ := sound _ _ _ readFirst
  obtain ⟨more, rfl, writtenLater⟩ := sound.others _ _ _ readLater
  exact ⟨here ++ more, by simp, .items written writtenLater⟩

theorem Sound.items? {item : Reader α} (sound : Sound item writes) :
    Sound (items? item) (OptionalText writes) := by
  intro text values rest read
  unfold Text.items? at read
  split at read
  · rename_i readItems
    cases read
    obtain ⟨taken, split, written⟩ := sound.items _ _ _ readItems
    exact ⟨taken, split, .list written⟩
  · cases read
    exact ⟨[], rfl, .nothing⟩

theorem sound_atom : Sound atom AtomText := by
  intro text a rest read
  simp only [atom, bind_eq_ok_iff] at read
  obtain ⟨⟨relation, behind⟩, readName, readTerms⟩ := read
  obtain ⟨name, rfl, isName⟩ := sound_word _ _ _ _ _ readName
  obtain ⟨terms, rfl, names, rfl, written⟩ :=
    (sound_word _ _).items?.enclosed.mapped _ _ _ _ readTerms
  exact ⟨name ++ terms, by simp, .applied isName written⟩

/-! ## What writes a value is read -/

/-- Behind gaps, the text ends or one of the marks stands. -/
def Before (marks : List Char) (rest : Chars) : Prop := ∀ c ∈ (skipGaps rest).head?, c ∈ marks

/-- Before one of the marks, and behind any gaps, the reader takes the text for
the value and leaves at most gaps of it. -/
def Reads (marks : List Char) (reader : Reader α) (a : α) (text : Chars) : Prop :=
  ∀ before rest, Gap before → Before marks rest →
    ∃ after, Gap after ∧ reader (before ++ text ++ rest) = .ok (a, after ++ rest)

theorem before_nil (marks : List Char) : Before marks [] := by simp [Before, skipGaps]

theorem Before.append {gap rest : Chars} (gaps : Gap gap)
    (ends : Before marks rest) : Before marks (gap ++ rest) := by
  rwa [Before, skipGaps_append gaps]

theorem Before.mono {marks' : List Char} {rest : Chars} (ends : Before marks rest)
    (subset : ∀ c ∈ marks, c ∈ marks') : Before marks' rest :=
  fun c ahead => subset c (ends c ahead)

/-- The marks of the grammar. -/
abbrev allMarks : List Char := ['(', ',', ')']

theorem Token.skipGaps_eq {c : Char} {more text : Chars} (written : Token (c :: more) text)
    (visible : c.isWhitespace = false) :
    ∃ after, Gap after ∧ ∀ before rest, Gap before →
      skipGaps (before ++ text ++ rest) = c :: (more ++ (after ++ rest)) := by
  obtain ⟨front, after, gapsFront, gapsAfter, rfl⟩ := written
  refine ⟨after, gapsAfter, fun before rest gapsBefore => ?_⟩
  rw [show before ++ (front ++ c :: more ++ after) ++ rest
      = (before ++ front) ++ (c :: (more ++ (after ++ rest))) by simp,
    skipGaps_append (gapsBefore.append gapsFront)]
  exact List.dropWhile_cons_of_neg (by simp [visible])

theorem Token.before {c : Char} {text : Chars} (written : Token [c] text)
    (visible : c.isWhitespace = false) (rest : Chars) : Before [c] (text ++ rest) := by
  obtain ⟨after, -, skipped⟩ := written.skipGaps_eq visible
  have here := skipped [] rest gap_nil
  simp only [List.nil_append] at here
  simp [Before, here]

theorem reads_mark {c : Char} {text : Chars} (visible : c.isWhitespace = false)
    (written : Token [c] text) (before rest : Chars) (gaps : Gap before) :
    ∃ after, Gap after ∧ mark c (before ++ text ++ rest) = .ok ((), after ++ rest) := by
  obtain ⟨after, gapsAfter, skipped⟩ := written.skipGaps_eq visible
  exact ⟨after, gapsAfter, by simp only [mark, skipped before rest gaps, List.nil_append, if_true]⟩

/-- A mark that is not there is not read. -/
theorem mark_eq_error {c : Char} {rest : Chars} (ends : Before marks rest)
    (absent : c ∉ marks) : ∃ stop, mark c rest = .error stop := by
  unfold mark
  split
  · exact ⟨_, rfl⟩
  · rename_i head behind remaining
    have ahead : head ∈ marks := ends head (by simp [remaining])
    exact ⟨_, if_neg (ne_of_mem_of_not_mem ahead absent)⟩

theorem not_isTermChar_of_mem_marks : ∀ c ∈ allMarks, isTermChar c = false := by
  simpa using List.all_eq_true.1 (show allMarks.all (! isTermChar ·) = true by decide)

theorem Before.head {rest : Chars} (ends : Before allMarks rest) :
    ∀ c ∈ rest.head?, isTermChar c = false := by
  intro c first
  cases gap : c.isWhitespace with
  | true => exact not_isTermChar_of_isWhitespace gap
  | false =>
    refine not_isTermChar_of_mem_marks c (ends c ?_)
    obtain ⟨more, rfl⟩ := List.head?_eq_some_iff.1 first
    simp [skipGaps, gap]

/-- Words of term characters. -/
theorem reads_word {first later : Char → Bool} (plain : Plain first later) {name : Name}
    {text : Chars} (written : WordText first later name text) :
    Reads allMarks (word first later) name text := by
  obtain ⟨⟨c, more, spelled, starts, continues⟩, token⟩ := written
  have visible : c.isWhitespace = false := by
    cases gap : c.isWhitespace with
    | false => rfl
    | true =>
      have := plain.first c starts
      simp [not_isTermChar_of_isWhitespace gap] at this
  rw [spelled] at token
  obtain ⟨after, gapsAfter, skipped⟩ := token.skipGaps_eq visible
  intro before rest gaps ends
  -- what follows the word cannot continue it
  have stop : ∀ d ∈ (after ++ rest).head?, later d = false := by
    intro d ahead
    cases continued : later d with
    | false => rfl
    | true =>
      have := (ends.append gapsAfter).head d ahead
      simp [plain.later d continued] at this
  have taken : (after ++ rest).takeWhile later = [] := by
    cases behind : after ++ rest <;> simp_all
  have left : (after ++ rest).dropWhile later = after ++ rest := by
    cases behind : after ++ rest <;> simp_all
  refine ⟨after, gapsAfter, ?_⟩
  simp only [word, skipped before rest gaps, starts, if_true,
    List.takeWhile_append_of_pos continues, List.dropWhile_append_of_pos continues, taken, left,
    List.append_nil, ← spelled, String.ofList_toList]

theorem reads_ident {name : Name} {text : Chars} (written : IdentText name text) :
    Reads allMarks ident name text :=
  reads_word plain_ident written

theorem reads_termName {name : Name} {text : Chars} (written : TermText name text) :
    Reads allMarks termName name text :=
  reads_word plain_term written

theorem Reads.mono {marks' : List Char} {a : α} {text : Chars}
    (reads : Reads marks' reader a text) (subset : ∀ c ∈ marks, c ∈ marks') :
    Reads marks reader a text :=
  fun before rest gaps ends => reads before rest gaps (ends.mono subset)

theorem Reads.mapped {a : α} {text : Chars} (f : α → β)
    (reads : Reads marks reader a text) : Reads marks (mapped f reader) (f a) text := by
  intro before rest gaps ends
  obtain ⟨after, gapsAfter, read⟩ := reads before rest gaps ends
  exact ⟨after, gapsAfter, by rw [Text.mapped, read]; rfl⟩

theorem reads_enclosed {inner : Reader α} {a : α} {text : Chars}
    (written : EnclosedText (Reads [')'] inner) a text) : Reads marks (enclosed inner) a text := by
  obtain @⟨opening, text, closing, isOpening, within, isClosing⟩ := written
  intro before rest gaps _
  obtain ⟨_, gapsOpening, readOpening⟩ :=
    reads_mark (by decide) isOpening before (text ++ (closing ++ rest)) gaps
  obtain ⟨_, gapsInner, readInner⟩ :=
    within _ (closing ++ rest) gapsOpening (isClosing.before (by decide) rest)
  obtain ⟨after, gapsClosing, readClosing⟩ := reads_mark (by decide) isClosing _ rest gapsInner
  refine ⟨after, gapsClosing, ?_⟩
  simp only [List.append_assoc] at readOpening readInner readClosing ⊢
  simp only [Text.enclosed, bind, Except.bind, pure, Except.pure, readOpening, readInner,
    readClosing]

/-! ### Lists -/

theorem FurtherText.before {item : α → Chars → Prop} {later : List α} {text rest : Chars}
    (written : FurtherText item later text) (ends : Before [')'] rest) :
    Before [',', ')'] (text ++ rest) := by
  cases written with
  | none => exact ends.mono (by simp)
  | next comma _ _ =>
    rw [List.append_assoc]
    exact (comma.before (by decide) _).mono (by simp)

theorem reads_further {item : Reader α} {later : List α} {text : Chars}
    (written : FurtherText (Reads [',', ')'] item) later text) {limit : Nat}
    (fits : later.length ≤ limit) (before rest : Chars) (gaps : Gap before)
    (ends : Before [')'] rest) :
    ∃ after, Gap after ∧ further item limit (before ++ text ++ rest) = (later, after ++ rest) := by
  induction written generalizing limit before with
  | none =>
    refine ⟨before, gaps, ?_⟩
    obtain ⟨stop, unread⟩ := mark_eq_error (ends.append gaps) (c := ',') (by decide)
    cases limit with
    | zero => simp [further]
    | succ limit => simp [further, unread]
  | @next a later comma text more isComma item_ more_ ih =>
    obtain _ | limit := limit
    · simp at fits
    obtain ⟨between, gapsBetween, readComma⟩ :=
      reads_mark (by decide) isComma before (text ++ more ++ rest) gaps
    obtain ⟨behind, gapsBehind, readItem⟩ :=
      item_ between (more ++ rest) gapsBetween (more_.before ends)
    obtain ⟨after, gapsAfter, readMore⟩ := ih (by simpa using fits) behind gapsBehind
    refine ⟨after, gapsAfter, ?_⟩
    simp only [List.append_assoc] at readComma readItem readMore ⊢
    simp only [further, readComma, readItem, readMore]

theorem reads_others {item : Reader α} {later : List α} {text : Chars}
    (written : FurtherText (Reads [',', ')'] item) later text) :
    Reads [')'] (others item) later text := by
  intro before rest gaps ends
  have fits : later.length ≤ (before ++ text ++ rest).length := by
    have := written.length_le
    simp only [List.length_append]
    omega
  obtain ⟨after, gapsAfter, read⟩ := reads_further written fits before rest gaps ends
  exact ⟨after, gapsAfter, by rw [others, read]⟩

theorem reads_items {item : Reader α} {values : List α} {text : Chars}
    (written : ListText (Reads [',', ')'] item) values text) :
    Reads [')'] (items item) values text := by
  obtain @⟨first, later, here, more, readsHere, furtherMore⟩ := written
  intro before rest gaps ends
  obtain ⟨_, gapsHere, readHere⟩ := readsHere before (more ++ rest) gaps (furtherMore.before ends)
  obtain ⟨after, gapsMore, readMore⟩ := reads_others furtherMore _ rest gapsHere ends
  refine ⟨after, gapsMore, ?_⟩
  simp only [List.append_assoc] at readHere readMore ⊢
  simp only [items, bind, Except.bind, pure, Except.pure, readHere, readMore]

/-! ### Atoms -/

theorem word_eq_error {first later : Char → Bool} (plain : Plain first later) {rest : Chars}
    (ends : Before allMarks rest) : ∃ stop, word first later rest = .error stop := by
  unfold word
  split
  · exact ⟨_, rfl⟩
  · rename_i head behind remaining
    refine ⟨_, if_neg fun starts => ?_⟩
    have := not_isTermChar_of_mem_marks head (ends head (by simp [remaining]))
    simp [plain.first head starts] at this

theorem reads_terms {names : List Name} {text : Chars}
    (written : OptionalText TermText names text) : Reads [')'] (items? termName) names text := by
  intro before rest gaps ends
  cases written with
  | nothing =>
    obtain ⟨stop, unread⟩ : ∃ stop, termName (before ++ rest) = .error stop :=
      word_eq_error plain_term ((ends.append gaps).mono (by simp))
    exact ⟨before, gaps, by simp [items?, items, bind, Except.bind, unread]⟩
  | list list =>
    have reads : ListText (Reads [',', ')'] termName) names text :=
      list.imp fun _ _ _ _ isTerm => (reads_termName isTerm).mono (by simp)
    obtain ⟨after, gapsAfter, read⟩ := reads_items reads before rest gaps ends
    exact ⟨after, gapsAfter, by rw [items?, read]⟩

theorem reads_arguments (relation : Name) {names : List Name} {text : Chars}
    (written : EnclosedText (OptionalText TermText) names text) :
    Reads marks (arguments relation) ⟨relation, names⟩ text := by
  obtain ⟨isOpening, areTerms, isClosing⟩ := written
  exact (reads_enclosed ⟨isOpening, reads_terms areTerms, isClosing⟩).mapped (RawAtom.mk relation)

/-- What is enclosed begins with its parenthesis. -/
theorem EnclosedText.before {inner : α → Chars → Prop} {a : α} {text : Chars}
    (written : EnclosedText inner a text) (rest : Chars) : Before allMarks (text ++ rest) := by
  obtain ⟨isOpening, -, -⟩ := written
  rw [List.append_assoc]
  exact (isOpening.before (by decide) _).mono (by simp)

theorem reads_atom {a : RawAtom} {text : Chars} (written : AtomText a text) :
    Reads marks atom a text := by
  obtain @⟨relation, names, name, terms, isIdent, areTerms⟩ := written
  intro before rest gaps ends
  obtain ⟨_, gapsName, readName⟩ :=
    reads_ident isIdent before (terms ++ rest) gaps (areTerms.before rest)
  obtain ⟨after, gapsTerms, readTerms⟩ :=
    reads_arguments relation areTerms _ rest gapsName ends
  refine ⟨after, gapsTerms, ?_⟩
  simp only [List.append_assoc] at readName readTerms ⊢
  simp only [atom, bind, Except.bind, readName, readTerms]

/-! ## Whole texts -/

/-- **A reader of both kinds accepts exactly what the relation says.** -/
theorem complete_eq_ok_iff {a : α} {text : Chars}
    (sound : Sound reader writes) (padded : Padded writes)
    (reads : writes a text → Reads [')'] reader a text) :
    complete reader text = .ok a ↔ writes a text := by
  constructor
  · intro read
    simp only [complete, bind_eq_ok_iff] at read
    obtain ⟨⟨b, rest⟩, readB, finished⟩ := read
    obtain ⟨taken, rfl, written⟩ := sound _ _ _ readB
    split at finished
    · rename_i nothing
      cases finished
      exact padded _ [] _ rest gap_nil (List.dropWhile_eq_nil_iff.1 nothing) written
    · cases finished
  · intro written
    obtain ⟨after, gaps, read⟩ := reads written [] [] gap_nil (before_nil _)
    simp only [List.nil_append, List.append_nil] at read
    simp only [complete, read, bind, Except.bind, skipGaps_of_gap gaps, pure, Except.pure]

end SafePlan.Text
