/-
# SafePlan.Text.Blank — blank characters

The characters with the property White_Space, as closed ranges of code points
in increasing order: 25 characters, none beyond U+3000. A text of blanks alone
counts as empty. Between the tokens of a written query or formula only the
four ASCII gaps of `Char.isWhitespace` may stand, and they are blank too.
-/
set_option autoImplicit false

namespace SafePlan.Text

def blankRanges : List (Nat × Nat) :=
  [(0x09, 0x0D), (0x20, 0x20), (0x85, 0x85), (0xA0, 0xA0), (0x1680, 0x1680),
   (0x2000, 0x200A), (0x2028, 0x2029), (0x202F, 0x202F), (0x205F, 0x205F),
   (0x3000, 0x3000)]

example : (blankRanges.flatMap fun (low, high) => List.range' low (high + 1 - low)).length = 25 := by
  decide

def isBlank (c : Char) : Bool :=
  blankRanges.any fun (low, high) => low ≤ c.toNat && c.toNat ≤ high

theorem isBlank_of_isWhitespace {c : Char} (gap : c.isWhitespace = true) : isBlank c = true := by
  simp only [Char.isWhitespace, Bool.or_eq_true, decide_eq_true_eq] at gap
  rcases gap with ((rfl | rfl) | rfl) | rfl <;> decide

end SafePlan.Text
