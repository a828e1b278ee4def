/-
# SafePlan.Text.Forward — readers only move forward

Wherever a reader ends, with a value or without one, what remains is a suffix
of the text it began with. So the place at which a text fails lies in that
text: `bytes_le_of_suffix` keeps `offset` from subtracting more than there is,
and `offset_eq` says that it counts the bytes before the place.
-/
import SafePlan.Text.FormulaText

set_option autoImplicit false

namespace SafePlan.Text

variable {α β : Type}

/-- What remains where a reader ended. -/
def place : Except Chars (α × Chars) → Chars
  | .ok (_, rest) => rest
  | .error stop => stop

def Forward (reader : Reader α) : Prop := ∀ text, place (reader text) <:+ text

theorem skipGaps_suffix (text : Chars) : skipGaps text <:+ text :=
  List.dropWhile_suffix _

theorem forward_mark (c : Char) : Forward (mark c) := by
  intro text
  have gaps := skipGaps_suffix text
  unfold mark
  split <;> rename_i remaining <;> rw [remaining] at gaps
  · exact gaps
  · split
    · exact (List.suffix_cons _ _).trans gaps
    · exact gaps

theorem forward_word (first later : Char → Bool) : Forward (word first later) := by
  intro text
  have gaps := skipGaps_suffix text
  unfold word
  split <;> rename_i remaining <;> rw [remaining] at gaps
  · exact gaps
  · split
    · exact ((List.dropWhile_suffix _).trans (List.suffix_cons _ _)).trans gaps
    · exact gaps

/-- One reader behind another. -/
theorem Forward.andThen {reader : Reader α} {next : α → Reader β} (forward : Forward reader)
    (forwardNext : ∀ a, Forward (next a)) :
    Forward (fun text => do
      let (a, rest) ← reader text
      next a rest) := by
  intro text
  have here := forward text
  cases read : reader text with
  | error stop => simpa [bind, Except.bind, read, place] using here
  | ok result =>
    obtain ⟨a, rest⟩ := result
    rw [read] at here
    simpa [bind, Except.bind, read] using (forwardNext a rest).trans here

theorem forward_pure (a : α) : Forward fun text => pure (a, text) :=
  fun _ => List.suffix_rfl

theorem Forward.mapped {reader : Reader α} (f : α → β) (forward : Forward reader) :
    Forward (mapped f reader) :=
  forward.andThen fun a => forward_pure (f a)

theorem Forward.enclosed {inner : Reader α} (forward : Forward inner) : Forward (enclosed inner) :=
  (forward_mark '(').andThen fun _ => forward.andThen fun value =>
    (forward_mark ')').andThen fun _ => forward_pure value

theorem Forward.further {item : Reader α} (forward : Forward item) (limit : Nat) (text : Chars) :
    (further item limit text).2 <:+ text := by
  induction limit generalizing text with
  | zero => exact List.suffix_rfl
  | succ limit ih =>
    rw [Text.further]
    have comma := forward_mark ',' text
    split <;> rename_i readComma
    · exact List.suffix_rfl
    · rw [readComma] at comma
      split <;> rename_i readItem
      · exact List.suffix_rfl
      · rename_i afterComma _ _ _
        have here := forward afterComma
        rw [readItem] at here
        exact ((ih _).trans here).trans comma

theorem Forward.others {item : Reader α} (forward : Forward item) : Forward (others item) :=
  fun text => forward.further text.length text

theorem Forward.items {item : Reader α} (forward : Forward item) : Forward (items item) :=
  forward.andThen fun first => forward.others.andThen fun later => forward_pure (first :: later)

theorem Forward.items? {item : Reader α} (forward : Forward item) : Forward (items? item) := by
  intro text
  have here := forward.items text
  unfold Text.items?
  split <;> rename_i read
  · rwa [read] at here
  · exact List.suffix_rfl

theorem forward_arguments (relation : Name) : Forward (arguments relation) :=
  (forward_word _ _).items?.enclosed.mapped _

theorem forward_atom : Forward atom :=
  (forward_word _ _).andThen forward_arguments

theorem Forward.operands {operand : Reader RawFormula}
    (join : RawFormula → List RawFormula → RawFormula) (forward : Forward operand) :
    Forward (operands join operand) :=
  forward.andThen fun first => (forward_mark ',').andThen fun _ => forward.andThen fun second =>
    forward.others.andThen fun later => forward_pure (join first (second :: later))

theorem Forward.binding {body : Reader RawFormula} (quantify : Name → RawFormula → RawFormula)
    (forward : Forward body) : Forward (binding quantify body) :=
  (forward_word _ _).andThen fun x => (forward_mark ',').andThen fun _ =>
    forward.andThen fun f => forward_pure (quantify x f)

theorem forward_behindWord {inner : Reader RawFormula} (forward : Forward inner) (name : Name) :
    Forward (behindWord inner name) := by
  unfold behindWord
  split
  · exact forward_pure _
  · exact (forward.mapped _).enclosed
  · exact (forward.operands _).enclosed
  · exact (forward.operands _).enclosed
  · exact (forward.binding _).enclosed
  · exact (forward.binding _).enclosed
  · exact (forward_arguments name).mapped _

theorem forward_formula (depth : Nat) : Forward (formula depth) := by
  induction depth with
  | zero => exact fun _ => List.suffix_rfl
  | succ depth ih => exact (forward_word _ _).andThen (forward_behindWord ih)

/-- Where a complete text fails is a place in it. -/
theorem complete_suffix {reader : Reader α} (forward : Forward reader) {text stop : Chars}
    (failed : complete reader text = .error stop) : stop <:+ text := by
  have here := forward text
  unfold complete at failed
  cases read : reader text with
  | error stop' =>
    rw [read] at failed here
    obtain rfl : stop' = stop := by simpa [bind, Except.bind] using failed
    exact here
  | ok result =>
    obtain ⟨value, rest⟩ := result
    rw [read] at failed here
    simp only [bind, Except.bind] at failed
    split at failed
    · simp [pure, Except.pure] at failed
    · obtain rfl : skipGaps rest = stop := by simpa [throw, throwThe, MonadExceptOf.throw] using failed
      exact (skipGaps_suffix rest).trans here

/-! ## Offsets -/

theorem bytes_append (before after : Chars) :
    bytes (before ++ after) = bytes before + bytes after := by
  induction before with
  | nil => simp [bytes]
  | cons c rest ih =>
    simp only [bytes, List.cons_append, List.foldr_cons] at ih ⊢
    rw [ih, Nat.add_assoc]

theorem bytes_le_of_suffix {text stop : Chars} (suffix : stop <:+ text) :
    bytes stop ≤ bytes text := by
  obtain ⟨before, rfl⟩ := suffix
  rw [bytes_append]
  exact Nat.le_add_left _ _

/-- **An offset counts the bytes before the place.** -/
theorem offset_eq (before stop : Chars) : offset (before ++ stop) stop = bytes before := by
  rw [offset, bytes_append, Nat.add_sub_cancel]

end SafePlan.Text
