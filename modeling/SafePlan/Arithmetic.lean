/-
# SafePlan.Arithmetic — the numbers that probabilities are made of

Evaluation multiplies probabilities and takes complements, and nothing else. An
`Arithmetic` offers just that, so the same definitions compute with binary
floating point and can be reasoned about over exact numbers. No law is assumed
here; a theorem that needs one states it.

Products are folds from the left that begin with `one`. The order of the
factors and of the operations is part of the result where arithmetic rounds.
-/
set_option autoImplicit false

namespace SafePlan

class Arithmetic (P : Type) where
  zero : P
  one : P
  mul : P → P → P
  /-- The probability of the opposite, `1 - p`. -/
  complement : P → P
  /-- Whether a given number is a probability. -/
  isProbability : P → Bool
  /-- The number to keep for a given one: negative zero is kept as zero. -/
  canonical : P → P

namespace Arithmetic

variable {P : Type} [Arithmetic P]

/-- The probability that independent events all happen. -/
def all (chances : List P) : P := chances.foldl mul one

/-- The probability that some of independent events happens. -/
def any (chances : List P) : P := complement (all (chances.map complement))

end Arithmetic

/-- Binary floating point of 64 bits. -/
instance : Arithmetic Float where
  zero := 0.0
  one := 1.0
  mul p q := p * q
  complement p := 1.0 - p
  isProbability p := 0.0 ≤ p && p ≤ 1.0
  canonical p := p + 0.0

/-- Exact arithmetic. -/
instance : Arithmetic Rat where
  zero := 0
  one := 1
  mul p q := p * q
  complement p := 1 - p
  isProbability p := 0 ≤ p && p ≤ 1
  canonical p := p

end SafePlan
