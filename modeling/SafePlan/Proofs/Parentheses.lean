/-
# SafePlan.Proofs.Parentheses — which parenthesis has no partner

Parentheses pair up as the grammar of nested words says (`Paired`). A closing one has a
partner before it when what lies between the two is paired, and so has an opening one
behind it. Reading from the left keeps the places that are still open; the invariant is
that what has been read is paired but for these (`Pending`), so that a closing parenthesis
belongs to the innermost of them.

What is found is the first closing parenthesis without a partner, or else the last opening
one (`Unpaired`); and nothing is found in paired texts only (`unbalanced?_eq_none_iff`).
-/
import SafePlan.Proofs.Grammar

set_option autoImplicit false

namespace SafePlan.Text

/-- Every parenthesis has its partner. -/
inductive Paired : Chars → Prop
  | nil : Paired []
  | other {c : Char} {rest : Chars} : c ≠ '(' → c ≠ ')' → Paired rest → Paired (c :: rest)
  | parens {inner rest : Chars} :
      Paired inner → Paired rest → Paired ('(' :: (inner ++ ')' :: rest))

/-- A closing parenthesis behind this text has its partner in it. -/
def OpenedBefore (before : Chars) : Prop :=
  ∃ outer inner, before = outer ++ '(' :: inner ∧ Paired inner

/-- An opening parenthesis before this text has its partner in it. -/
def ClosedBehind (behind : Chars) : Prop :=
  ∃ inner outer, behind = inner ++ ')' :: outer ∧ Paired inner

/-- All closing parentheses have partners before them. -/
def AllOpened (text : Chars) : Prop :=
  ∀ before rest, text = before ++ ')' :: rest → OpenedBefore before

/-- A text is cut where its parentheses do not pair up: before the first closing one without
a partner or, if there is none such, before the last opening one. -/
inductive Unpaired : Chars → Chars → Prop
  | closing {before rest : Chars} :
      ¬ OpenedBefore before → AllOpened before → Unpaired before (')' :: rest)
  | opening {before rest : Chars} :
      ¬ ClosedBehind rest → (∀ between later, rest = between ++ '(' :: later → ClosedBehind later) →
        AllOpened (before ++ '(' :: rest) → Unpaired before ('(' :: rest)

/-! ## Paired texts -/

theorem Paired.append {front back : Chars} (first : Paired front) (second : Paired back) :
    Paired (front ++ back) := by
  induction first with
  | nil => exact second
  | other notOpening notClosing _ ih => exact .other notOpening notClosing ih
  | @parens inner rest within _ _ ih =>
    rw [List.cons_append, List.append_assoc, List.cons_append]
    exact .parens within ih

theorem paired_parens {inner : Chars} (within : Paired inner) :
    Paired ('(' :: (inner ++ [')'])) :=
  .parens within .nil

theorem Paired.count_eq {text : Chars} (paired : Paired text) :
    text.count '(' = text.count ')' := by
  induction paired with
  | nil => rfl
  | other notOpening notClosing _ ih =>
    rw [List.count_cons_of_ne notOpening, List.count_cons_of_ne notClosing, ih]
  | parens _ _ within later =>
    simp only [List.count_cons, List.count_append]
    simp
    omega

/-- No part of a paired text from its beginning closes more than it opens. -/
theorem Paired.count_le {text : Chars} (paired : Paired text) {front back : Chars}
    (cut : text = front ++ back) : front.count ')' ≤ front.count '(' := by
  induction paired generalizing front back with
  | nil =>
    obtain ⟨rfl, -⟩ := List.append_eq_nil_iff.1 cut.symm
    rfl
  | other notOpening notClosing _ ih =>
    obtain ⟨rfl, -⟩ | ⟨front, rfl, rest⟩ := List.cons_eq_append_iff.1 cut
    · rfl
    · rw [List.count_cons_of_ne notOpening, List.count_cons_of_ne notClosing]
      exact ih rest
  | @parens inner rest within _ ihInner ihRest =>
    have inside := within.count_eq
    obtain ⟨rfl, -⟩ | ⟨front, rfl, behind⟩ := List.cons_eq_append_iff.1 cut
    · rfl
    obtain ⟨part, rfl, closing⟩ | ⟨part, part_, -⟩ := List.append_eq_append_iff.1 behind
    · obtain ⟨rfl, -⟩ | ⟨part, rfl, later⟩ := List.cons_eq_append_iff.1 closing
      · simp
        omega
      · have := ihRest later
        simp
        omega
    · have := ihInner part_
      simp
      omega

theorem Paired.not_openedBefore {before : Chars} (paired : Paired before) :
    ¬ OpenedBefore before := by
  rintro ⟨outer, inner, rfl, within⟩
  have whole := paired.count_eq
  have first := paired.count_le rfl
  have inside := within.count_eq
  simp [List.count_append] at whole
  omega

theorem Paired.not_closedBehind {behind : Chars} (paired : Paired behind) :
    ¬ ClosedBehind behind := by
  rintro ⟨inner, outer, rfl, within⟩
  have first := paired.count_le (List.append_cons inner ')' outer)
  have inside := within.count_eq
  simp [List.count_append] at first
  omega

/-- In a paired text every opening parenthesis has its partner behind it. -/
theorem Paired.closedBehind {text : Chars} (paired : Paired text) {before behind : Chars}
    (cut : text = before ++ '(' :: behind) : ClosedBehind behind := by
  induction paired generalizing before behind with
  | nil => simp at cut
  | other notOpening _ _ ih =>
    obtain ⟨-, same⟩ | ⟨before, rfl, rest⟩ := List.cons_eq_append_iff.1 cut
    · exact absurd (List.cons.inj same).1.symm notOpening
    · exact ih rest
  | @parens inner rest within _ ihInner ihRest =>
    obtain ⟨-, same⟩ | ⟨before, rfl, later⟩ := List.cons_eq_append_iff.1 cut
    · exact ⟨inner, rest, (List.cons.inj same).2, within⟩
    obtain ⟨part, rfl, closing⟩ | ⟨part, rfl, opening⟩ := List.append_eq_append_iff.1 later
    · obtain ⟨-, same⟩ | ⟨part, rfl, inRest⟩ := List.cons_eq_append_iff.1 closing
      · simp at same
      · exact ihRest inRest
    · obtain ⟨-, same⟩ | ⟨part, rfl, rfl⟩ := List.cons_eq_append_iff.1 opening
      · simp at same
      · obtain ⟨inner', outer, rfl, within'⟩ := ihInner rfl
        exact ⟨inner', outer ++ ')' :: rest, by simp, within'⟩

/-! ## Reading from the left -/

/-- What has been read, and what is still to be read, with the places that are open: the
innermost first, and what is read behind each of them is paired. -/
inductive Pending : Chars → Chars → List Chars → Prop
  | closed {before rest : Chars} : Paired before → Pending before rest []
  | opening {before inner rest : Chars} {places : List Chars} :
      Pending before ('(' :: (inner ++ rest)) places → Paired inner →
        Pending (before ++ '(' :: inner) rest (('(' :: (inner ++ rest)) :: places)

/-- What is paired changes nothing. -/
theorem Pending.append {before part rest : Chars} {places : List Chars}
    (pending : Pending before (part ++ rest) places) (paired : Paired part) :
    Pending (before ++ part) rest places := by
  cases pending with
  | closed read => exact .closed (read.append paired)
  | @opening before inner _ places outer within =>
    rw [← List.append_assoc] at outer ⊢
    rw [List.append_assoc, List.cons_append]
    exact .opening outer (within.append paired)

/-- **One step of reading.** It is at a closing parenthesis that has no partner, or what is
open for the next step is known. -/
theorem Pending.step {c : Char} {before rest : Chars} {places : List Chars}
    (pending : Pending before (c :: rest) places) :
    (c = ')' ∧ places = [] ∧ Paired before) ∨
      ∃ places', Pending (before ++ [c]) rest places' ∧
        unbalanced? places (c :: rest) = unbalanced? places' rest ∧
        (c = ')' → OpenedBefore before) := by
  by_cases isOpening : c = '('
  · subst isOpening
    exact .inr ⟨_, .opening pending .nil, unbalanced?_opening places rest,
      fun same => absurd same (by decide)⟩
  by_cases isClosing : c = ')'
  · subst isClosing
    cases pending with
    | closed read => exact .inl ⟨rfl, rfl, read⟩
    | @opening outer inner _ places pending within =>
      -- the innermost open place is closed, and so part of what is paired behind the next
      have closed : Pending (outer ++ '(' :: (inner ++ [')'])) rest places :=
        Pending.append (by simpa using pending) (paired_parens within)
      exact .inr ⟨places, by simpa using closed, unbalanced?_closing _ places rest,
        fun _ => ⟨outer, inner, rfl, within⟩⟩
  · have read : Pending (before ++ [c]) rest places :=
      Pending.append (by simpa using pending) (.other isOpening isClosing .nil)
    exact .inr ⟨places, read, unbalanced?_of_ne isOpening isClosing places rest,
      fun same => absurd same isClosing⟩

theorem allOpened_concat {before : Chars} {c : Char} (opened : AllOpened before)
    (last : c = ')' → OpenedBefore before) : AllOpened (before ++ [c]) := by
  intro front rest cut
  obtain ⟨part, rfl, own⟩ | ⟨part, rfl, closing⟩ := List.append_eq_append_iff.1 cut
  · obtain ⟨rfl, same⟩ | ⟨part, rfl, nothing⟩ := List.cons_eq_append_iff.1 own
    · rw [List.append_nil]
      exact last (List.cons.inj same).1.symm
    · simp at nothing
  · obtain ⟨rfl, same⟩ | ⟨part, rfl, -⟩ := List.cons_eq_append_iff.1 closing
    · rw [List.append_nil] at last
      exact last (List.cons.inj same).1
    · exact opened front part rfl

/-- **What is found without a partner**, reading on from any point. -/
theorem Pending.unpaired {before rest place : Chars} {places : List Chars}
    (pending : Pending before rest places) (opened : AllOpened before)
    (found : unbalanced? places rest = some place) :
    ∃ front, before ++ rest = front ++ place ∧ Unpaired front place := by
  induction rest generalizing before places with
  | nil =>
    cases pending with
    | closed => cases found
    | @opening before inner _ _ _ within =>
      rw [List.append_nil] at found
      cases found
      exact ⟨before, by simp, .opening within.not_closedBehind
        (fun _ _ cut => within.closedBehind cut) opened⟩
  | cons c rest ih =>
    obtain ⟨rfl, rfl, read⟩ | ⟨places', pending', same, partner⟩ := pending.step
    · have here : ')' :: rest = place := by simpa [unbalanced?] using found
      exact ⟨before, by rw [here], here ▸ .closing read.not_openedBefore opened⟩
    · rw [same] at found
      rw [List.append_cons]
      exact ih pending' (allOpened_concat opened partner) found

theorem Pending.paired {before rest : Chars} {places : List Chars}
    (pending : Pending before rest places) (nothing : unbalanced? places rest = none) :
    Paired (before ++ rest) := by
  induction rest generalizing before places with
  | nil =>
    cases pending with
    | closed read => rwa [List.append_nil]
    | opening => cases nothing
  | cons c rest ih =>
    obtain ⟨rfl, rfl, -⟩ | ⟨places', pending', same, -⟩ := pending.step
    · simp [unbalanced?] at nothing
    · rw [same] at nothing
      rw [List.append_cons]
      exact ih pending' nothing

theorem unpaired_of_unbalanced? {text place : Chars} (found : unbalanced? [] text = some place) :
    ∃ front, text = front ++ place ∧ Unpaired front place :=
  Pending.unpaired (.closed .nil) (by simp [AllOpened]) found

theorem Paired.balanced {text : Chars} (paired : Paired text) : Balanced text := by
  induction paired with
  | nil => exact balanced_nil
  | other notOpening notClosing _ ih =>
    intro opened rest
    rw [List.cons_append, unbalanced?_of_ne notOpening notClosing, ih]
  | parens _ _ within later =>
    intro opened rest
    rw [List.cons_append, unbalanced?_opening, List.append_assoc, within, List.cons_append,
      unbalanced?_closing, later]

/-- **Nothing is found in paired texts only.** -/
theorem unbalanced?_eq_none_iff {text : Chars} : unbalanced? [] text = none ↔ Paired text := by
  constructor
  · exact Pending.paired (.closed .nil)
  · intro paired
    simpa [unbalanced?] using paired.balanced [] []

end SafePlan.Text
