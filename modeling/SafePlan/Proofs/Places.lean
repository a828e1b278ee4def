/-
# SafePlan.Proofs.Places — errors point at the failure

The offset of an error counts the bytes before a place in the text, and the place says what
is wrong (`PointsAtFailure`): the parenthesis that has no partner, the second bar, or where
a part of the text cannot be read on although what comes before could be continued. Each
stage of reading has its errors: the screen those of parentheses, the cut at the bar its
own and those of the variables, and each part is read on its own. An offset within a part
is counted from the end of the text; since the place is in the part, that never takes off
more bytes than there are.

The places are the same whatever the bytes of the characters before them, and so an offset
is never inside a character (`parse_error_pointsAtFailure`).
-/
import SafePlan.Proofs.Parentheses
import SafePlan.Proofs.QueryGrammar
import SafePlan.Proofs.Viability
import SafePlan.Text.Forward

set_option autoImplicit false

namespace SafePlan

/-- The offset of an error, if it has one. -/
def ParseError.offset? : ParseError → Option Nat
  | .empty => none
  | .unbalancedParens offset => some offset
  | .multipleSeparators offset => some offset
  | .unexpected offset _ => some offset
  | .invalid _ => none

namespace Text

/-- The text is read, or refused for what it says only. -/
def Readable {α : Type} (parse : String → Except ParseError α) (text : Chars) : Prop :=
  (∃ a, parse (String.ofList text) = .ok a) ∨
    ∃ fault, parse (String.ofList text) = .error (.invalid fault)

/-- The part of a text in which something is expected, and what stands before that part: a
query is cut at its bar, if it has one. -/
inductive PartOf : Expected → Chars → Chars → Chars → Prop
  | formula {text : Chars} : PartOf .formula text [] text
  | beforeBar {front back : Chars} :
      '|' ∉ front → '|' ∉ back → PartOf .variables (front ++ '|' :: back) [] front
  | withoutBar {text : Chars} : '|' ∉ text → PartOf .atoms text [] text
  | behindBar {front back : Chars} :
      '|' ∉ front → '|' ∉ back → PartOf .atoms (front ++ '|' :: back) (front ++ ['|']) back

/-- The error points at what is wrong with the text: at the parenthesis without a partner, at
the second bar, or at a place of the part it speaks of up to which the text could be
continued. Its offset is counted from that part, and counts the bytes before the place. -/
def PointsAtFailure {α : Type} (parse : String → Except ParseError α) (text : Chars) :
    ParseError → Prop
  | .empty => True
  | .unbalancedParens offset => ∃ before place,
      text = before ++ place ∧ Unpaired before place ∧ offset = bytes before
  | .multipleSeparators offset => ∃ first second rest,
      text = first ++ '|' :: (second ++ '|' :: rest) ∧ '|' ∉ first ∧ '|' ∉ second ∧
        offset = bytes (first ++ '|' :: second)
  | .unexpected offset expected => ∃ front part read stop,
      PartOf expected text front part ∧ part = read ++ stop ∧ bytes stop ≤ bytes part ∧
        offset = bytes front + bytes part - bytes stop ∧ offset = bytes (front ++ read) ∧
        ∃ more, Readable parse (front ++ read ++ more)
  | .invalid _ => True

section Points

variable {α : Type} {parse : String → Except ParseError α} {text : Chars} {error : ParseError}

theorem pointsAtFailure_of_screen (refused : screen text = .error error) :
    PointsAtFailure parse text error := by
  unfold screen at refused
  split at refused
  · cases refused
    trivial
  · split at refused <;> rename_i found
    · cases refused
      obtain ⟨before, rfl, unpaired⟩ := unpaired_of_unbalanced? found
      exact ⟨before, _, rfl, unpaired, offset_eq before _⟩
    · cases refused

/-- An error within a part, from the reader of that part. -/
theorem pointsAtFailure_of_part {expected : Expected} {front part stop : Chars} {offset : Nat}
    (isPart : PartOf expected text front part)
    (counted : offset = bytes front + bytes part - bytes stop)
    (viable : ∃ read, part = read ++ stop ∧ ∃ more, Readable parse (front ++ read ++ more)) :
    PointsAtFailure parse text (.unexpected offset expected) := by
  obtain ⟨read, rfl, continued⟩ := viable
  have fits : bytes stop ≤ bytes (read ++ stop) := bytes_le_of_suffix (List.suffix_append _ _)
  refine ⟨front, read ++ stop, read, stop, isPart, rfl, fits, counted, ?_, continued⟩
  rw [counted, bytes_append, bytes_append]
  omega

end Points

/-! ## Queries -/

theorem readable_of_queryText {raw : RawQuery} {text : Chars} (derived : QueryText raw text) :
    Readable Query.parse text := by
  have whole : QueryText raw (String.ofList text).toList := by rwa [String.toList_ofList]
  rw [Readable, Query.parse_of_queryText whole]
  cases Query.make raw.vars (raw.atoms.map (RawAtom.resolve raw.vars)) with
  | ok q => exact .inl ⟨q, rfl⟩
  | error fault => exact .inr ⟨fault, rfl⟩

/-- The atom `x()`. -/
theorem atoms_x : ListText AtomText [⟨"x", []⟩] ['x', '(', ')'] :=
  .items (atomText_of_ident identText_x) .none

theorem viable_of_idents {text stop : Chars} (failed : complete (items ident) text = .error stop) :
    ∃ read, text = read ++ stop ∧ Viable (ListText IdentText) read :=
  viable_of_complete (sound_word _ _).items stops_ident.items
    (ListText.padded (WordText.padded _ _)) failed

theorem viable_of_atoms {text stop : Chars} (failed : complete (items atom) text = .error stop) :
    ∃ read, text = read ++ stop ∧ Viable (ListText AtomText) read :=
  viable_of_complete sound_atom.items stops_atom.items (ListText.padded AtomText.padded) failed

theorem pointsAtFailure_of_declarations {text : Chars} {error : ParseError}
    (refused : declarations text = .error error) : PointsAtFailure Query.parse text error := by
  rcases declarations_cases text with
    ⟨-, whole⟩ | ⟨_, _, _, -, -, -, -, cut⟩ | ⟨first, second, rest, rfl, absent, absent', bars⟩ |
      ⟨front, back, stop, rfl, absent, last, failed, stops⟩
  · rw [whole] at refused
    cases refused
  · rw [cut] at refused
    cases refused
  · rw [bars] at refused
    cases refused
    refine ⟨first, second, rest, rfl, absent, absent', ?_⟩
    rw [← offset_eq _ ('|' :: rest), List.append_assoc, List.cons_append]
  · rw [stops] at refused
    cases refused
    obtain ⟨read, rfl, more, vars, areVars⟩ := viable_of_idents failed
    refine pointsAtFailure_of_part (.beforeBar absent last) (by simp [offset, bytes])
      ⟨read, rfl, more ++ '|' :: ['x', '(', ')'], ?_⟩
    simpa using readable_of_queryText (.declared areVars (token_self ['|']) atoms_x)

/-- Where declarations are read, what is behind them is the part for the atoms. -/
theorem partOf_declarations {text body : Chars} {vars : List Name}
    (declared : declarations text = .ok (vars, body)) :
    ∃ front, text = front ++ body ∧ PartOf .atoms text front body ∧
      ∀ atoms written, ListText AtomText atoms written →
        QueryText ⟨vars, atoms⟩ (front ++ written) := by
  rcases declarations_cases text with
    ⟨absent, whole⟩ | ⟨front, back, vars', rfl, absent, last, read, cut⟩ |
      ⟨_, _, _, -, -, -, refused⟩ | ⟨_, _, _, -, -, -, -, refused⟩
  · rw [whole] at declared
    cases declared
    exact ⟨[], rfl, .withoutBar absent, fun _ _ => .ground⟩
  · rw [cut] at declared
    cases declared
    refine ⟨front ++ ['|'], by simp, .behindBar absent last, fun atoms written areAtoms => ?_⟩
    rw [List.append_assoc]
    exact .declared (complete_idents_eq_ok_iff.1 read) (token_self ['|']) areAtoms
  · rw [refused] at declared
    cases declared
  · rw [refused] at declared
    cases declared

theorem PartOf.exists_behind {expected : Expected} {text front part : Chars}
    (isPart : PartOf expected text front part) : ∃ behind, text = front ++ (part ++ behind) := by
  cases isPart with
  | formula => exact ⟨[], by simp⟩
  | beforeBar => exact ⟨_, rfl⟩
  | withoutBar => exact ⟨[], by simp⟩
  | behindBar => exact ⟨[], by simp⟩

theorem pointsAtFailure_of_query {written : String} {error : ParseError}
    (refused : Query.parse written = .error error) :
    PointsAtFailure Query.parse written.toList error := by
  simp only [Query.parse, bind_eq_error_iff] at refused
  obtain screened | ⟨_, -, cut | ⟨⟨vars, body⟩, declared, later⟩⟩ := refused
  · exact pointsAtFailure_of_screen screened
  · exact pointsAtFailure_of_declarations cut
  · split at later <;> rename_i failed
    · cases later
      obtain ⟨front, cut, isPart, derives⟩ := partOf_declarations declared
      obtain ⟨read, within, more, atoms, areAtoms⟩ := viable_of_atoms failed
      refine pointsAtFailure_of_part isPart ?_ ⟨read, within, more, ?_⟩
      · rw [offset, cut, bytes_append]
      · simpa using readable_of_queryText (derives _ _ areAtoms)
    · split at later <;> cases later
      trivial

/-! ## Formulas -/

theorem pointsAtFailure_of_formula {written : String} {error : ParseError}
    (refused : Formula.parse written = .error error) :
    PointsAtFailure Formula.parse written.toList error := by
  simp only [Formula.parse, bind_eq_error_iff] at refused
  obtain screened | ⟨_, -, later⟩ := refused
  · exact pointsAtFailure_of_screen screened
  · split at later <;> rename_i failed
    · cases later
      obtain ⟨read, cut, more, f, derived⟩ :=
        viable_of_complete (sound_formula _) (stops_formula _) FormulaText.padded failed
      refine pointsAtFailure_of_part .formula ?_ ⟨read, cut, more, .inl ?_⟩
      · simp [offset, bytes]
      · exact ⟨_, Formula.parse_of_formulaText (by simpa using derived)⟩
    · cases later

/-! ## Offsets -/

theorem utf8ByteSize_ofList (text : Chars) : (String.ofList text).utf8ByteSize = bytes text := by
  induction text with
  | nil => rfl
  | cons c rest ih =>
    rw [String.ofList_cons, String.utf8ByteSize_append, String.utf8ByteSize_singleton, ih]
    rfl

/-- The place of an error is between two characters. -/
theorem PointsAtFailure.exists_cut {α : Type} {parse : String → Except ParseError α} {text : Chars}
    {error : ParseError} {offset : Nat} (points : PointsAtFailure parse text error)
    (counts : error.offset? = some offset) :
    ∃ before behind, text = before ++ behind ∧ offset = bytes before := by
  cases error with
  | empty => cases counts
  | unbalancedParens =>
    cases counts
    obtain ⟨before, place, cut, -, counted⟩ := points
    exact ⟨before, place, cut, counted⟩
  | multipleSeparators =>
    cases counts
    obtain ⟨first, second, rest, rfl, -, -, counted⟩ := points
    exact ⟨first ++ '|' :: second, '|' :: rest, by simp, counted⟩
  | unexpected =>
    cases counts
    obtain ⟨front, part, read, stop, isPart, rfl, -, -, counted, -⟩ := points
    obtain ⟨behind, rfl⟩ := isPart.exists_behind
    exact ⟨front ++ read, stop ++ behind, by simp, counted⟩
  | invalid => cases counts

theorem isValid_of_cut {written : String} {before behind : Chars}
    (cut : written.toList = before ++ behind) :
    bytes before ≤ written.utf8ByteSize ∧ String.Pos.Raw.IsValid written ⟨bytes before⟩ := by
  have whole : written = String.ofList before ++ String.ofList behind := by
    rw [← String.ofList_append, ← cut, String.ofList_toList]
  constructor
  · rw [whole, String.utf8ByteSize_append, utf8ByteSize_ofList]
    exact Nat.le_add_right _ _
  · refine String.Pos.Raw.isValid_iff_exists_append.2 ⟨_, _, whole, ?_⟩
    rw [← utf8ByteSize_ofList]
    rfl

end Text

/-- **Errors point at the failure**, of queries and of formulas; and an offset is that of a
character of the text, or of its end. -/
theorem parse_error_pointsAtFailure (written : String) :
    (∀ error, Query.parse written = .error error →
      Text.PointsAtFailure Query.parse written.toList error) ∧
    (∀ error, Formula.parse written = .error error →
      Text.PointsAtFailure Formula.parse written.toList error) ∧
    ∀ error offset, Query.parse written = .error error ∨ Formula.parse written = .error error →
      error.offset? = some offset →
        offset ≤ written.utf8ByteSize ∧ String.Pos.Raw.IsValid written ⟨offset⟩ := by
  refine ⟨fun _ => Text.pointsAtFailure_of_query, fun _ => Text.pointsAtFailure_of_formula, ?_⟩
  intro error offset refused counts
  obtain ⟨before, behind, cut, rfl⟩ : ∃ before behind,
      written.toList = before ++ behind ∧ offset = Text.bytes before := by
    rcases refused with query | formula
    · exact (Text.pointsAtFailure_of_query query).exists_cut counts
    · exact (Text.pointsAtFailure_of_formula formula).exists_cut counts
  exact Text.isValid_of_cut cut

/-- The list of atoms ends before its last comma, and two bytes of the text are one `é`. -/
example : Query.parse "x | R(x), é" = .error (.unexpected 8 .atoms) := by cbv

end SafePlan
