/-
# SafePlan.Proofs.Shortest — the decimal text of a number

The text of a number reads back as that number, and none on a coarser grid does: its
point is on the coarsest grid with a point between the midpoints to the neighbours, and
on that grid nearest to the number, the upper of two (`shortest_spec`). Points are
compared without division, over one denominator for the interval and the grid
(`scaled_le_iff`), and of a grid only the two points around the number have to be tried,
since the interval holds the number (`onGrid?_cases`).

The finest grid is fine enough for every double, and the coarsest too coarse. All places
are then written out (`positional_reads`). So the text of a double that is neither zero
nor infinite is the shortest decimal of its mantissa and exponent (`decimal_of_finite`).
-/
import SafePlan.Proofs.Doubles
import SafePlan.Text.Decimal

set_option autoImplicit false

namespace SafePlan.Text

/-! ## Numbers and what rounds to them -/

namespace Binary

variable (b : Binary)

def value : ℚ := b.mantissa * 2 ^ b.exponent

/-- The midpoint to the neighbour below. -/
def lower : ℚ := (b.mantissa - if b.leastOfExponent then 1 / 4 else 1 / 2) * 2 ^ b.exponent

/-- The midpoint to the neighbour above. -/
def upper : ℚ := (b.mantissa + 1 / 2) * 2 ^ b.exponent

/-- A number between the midpoints is read as this one, and so are the midpoints if the
mantissa is even. -/
def Reads (x : ℚ) : Prop :=
  if b.mantissa % 2 = 0 then b.lower ≤ x ∧ x ≤ b.upper else b.lower < x ∧ x < b.upper

/-- A positive number of 64 bits. -/
structure IsDouble : Prop where
  positive : 0 < b.mantissa
  mantissa : b.mantissa < 2 ^ 53
  least : -1074 ≤ b.exponent
  greatest : b.exponent ≤ 971

variable {b} {x : ℚ}

theorem lower_lt_value : b.lower < b.value := by
  have scale : (0 : ℚ) < 2 ^ b.exponent := by positivity
  refine mul_lt_mul_of_pos_right ?_ scale
  split <;> linarith

theorem value_lt_upper : b.value < b.upper := by
  have scale : (0 : ℚ) < 2 ^ b.exponent := by positivity
  exact mul_lt_mul_of_pos_right (by linarith) scale

theorem reads_of_lt (above : b.lower < x) (below : x < b.upper) : b.Reads x := by
  unfold Reads
  split
  · exact ⟨above.le, below.le⟩
  · exact ⟨above, below⟩

theorem Reads.bounds (reads : b.Reads x) : b.lower ≤ x ∧ x ≤ b.upper := by
  unfold Reads at reads
  split at reads
  · exact reads
  · exact ⟨reads.1.le, reads.2.le⟩

/-- What is read as the number lies in an interval. -/
theorem Reads.of_between {y z : ℚ} (readsX : b.Reads x) (readsZ : b.Reads z) (above : x ≤ y)
    (below : y ≤ z) : b.Reads y := by
  unfold Reads at *
  split <;> rename_i even
  · rw [if_pos even] at readsX readsZ
    exact ⟨readsX.1.trans above, below.trans readsZ.2⟩
  · rw [if_neg even] at readsX readsZ
    exact ⟨readsX.1.trans_le above, below.trans_lt readsZ.2⟩

/-- Up to the number only the lower midpoint matters, and beyond it only the upper. -/
theorem reads_iff_of_le (upTo : x ≤ b.value) :
    b.Reads x ↔ if b.mantissa % 2 = 0 then b.lower ≤ x else b.lower < x := by
  have below : x < b.upper := upTo.trans_lt value_lt_upper
  unfold Reads
  split
  · exact and_iff_left below.le
  · exact and_iff_left below

theorem reads_iff_of_lt (past : b.value < x) :
    b.Reads x ↔ if b.mantissa % 2 = 0 then x ≤ b.upper else x < b.upper := by
  have above : b.lower < x := lower_lt_value.trans past
  unfold Reads
  split
  · exact and_iff_right above.le
  · exact and_iff_right above

theorem reads_value (b : Binary) : b.Reads b.value := reads_of_lt lower_lt_value value_lt_upper

end Binary

namespace Decimal

def value (d : Decimal) : ℚ := d.digits * 10 ^ d.exponent

/-- The decimal reads back as the number. None on a coarser grid does, and of those on
its grid that do none is nearer, nor as near and greater. -/
structure IsShortest (b : Binary) (d : Decimal) : Prop where
  reads : b.Reads d.value
  coarsest : ∀ other : Decimal, d.exponent < other.exponent → ¬ b.Reads other.value
  nearest : ∀ other : Decimal, other.exponent = d.exponent → b.Reads other.value →
    |d.value - b.value| ≤ |other.value - b.value|
  upper : ∀ other : Decimal, other.exponent = d.exponent → b.Reads other.value →
    |other.value - b.value| = |d.value - b.value| → other.digits ≤ d.digits

/-! ## One denominator -/

section Denominator

variable (b : Binary) (e : Int)

theorem twoTo_eq (n : Nat) : twoTo n = 2 ^ n := rfl

theorem tenTo_eq (n : Nat) : tenTo n = 10 ^ n := rfl

theorem zpow_mul_pow (base : Nat) (positive : 0 < base) (e : Int) :
    (base : ℚ) ^ e * (base ^ (-e).toNat : Nat) = (base ^ e.toNat : Nat) := by
  have nonzero : (base : ℚ) ≠ 0 := by exact_mod_cast positive.ne'
  push_cast
  rw [← zpow_natCast, ← zpow_natCast, ← zpow_add₀ nonzero]
  congr 1
  omega

/-- The denominator of the interval and of the grid. -/
def denominator : Nat := b.interval.denominator * tenTo (-e).toNat

theorem denominator_pos : 0 < denominator b e :=
  Nat.mul_pos (Nat.pow_pos (by norm_num)) (Nat.pow_pos (by norm_num))

theorem coarse_pos : 0 < tenTo e.toNat * b.interval.denominator :=
  Nat.mul_pos (Nat.pow_pos (by norm_num)) (Nat.pow_pos (by norm_num))

theorem value_scaled (k : Nat) :
    value ⟨k, e⟩ * denominator b e = (k * (tenTo e.toNat * b.interval.denominator) : Nat) := by
  have grid := zpow_mul_pow 10 (by norm_num) e
  calc value ⟨k, e⟩ * denominator b e
      = k * ((10 : Nat) ^ e * (10 ^ (-e).toNat : Nat)) * b.interval.denominator := by
        rw [value, denominator, tenTo_eq]
        push_cast
        ring
    _ = (k * (tenTo e.toNat * b.interval.denominator) : Nat) := by
        rw [grid, tenTo_eq]
        push_cast
        ring

/-- A number of quarters of the last place. -/
theorem quarters_scaled (quarters : Nat) :
    (quarters : ℚ) / 4 * 2 ^ b.exponent * denominator b e =
      (quarters * twoTo (b.exponent - 2).toNat * tenTo (-e).toNat : Nat) := by
  have scale := zpow_mul_pow 2 (by norm_num) (b.exponent - 2)
  have four : (2 : ℚ) ^ b.exponent = 4 * ((2 : Nat) : ℚ) ^ (b.exponent - 2) := by
    rw [Nat.cast_ofNat, zpow_sub₀ two_ne_zero]
    norm_num
    ring
  calc (quarters : ℚ) / 4 * 2 ^ b.exponent * denominator b e
      = quarters * (((2 : Nat) : ℚ) ^ (b.exponent - 2) * (2 ^ (-(b.exponent - 2)).toNat : Nat)) *
          (tenTo (-e).toNat : Nat) := by
        simp only [four, denominator, Binary.interval, twoTo_eq]
        push_cast
        ring
    _ = (quarters * twoTo (b.exponent - 2).toNat * tenTo (-e).toNat : Nat) := by
        rw [scale, twoTo_eq]
        push_cast
        ring

theorem number_scaled :
    b.value * denominator b e = (b.interval.value * tenTo (-e).toNat : Nat) := by
  rw [Binary.interval, ← quarters_scaled, Binary.value]
  push_cast
  ring

theorem upper_scaled :
    b.upper * denominator b e = (b.interval.high * tenTo (-e).toNat : Nat) := by
  rw [Binary.interval, ← quarters_scaled, Binary.upper]
  push_cast
  ring

theorem lower_scaled (positive : 0 < b.mantissa) :
    b.lower * denominator b e = (b.interval.low * tenTo (-e).toNat : Nat) := by
  have fits : (if b.leastOfExponent then 1 else 2) ≤ 4 * b.mantissa := by split <;> omega
  rw [Binary.interval, ← quarters_scaled, Binary.lower, Nat.cast_sub fits]
  split <;> push_cast <;> ring

end Denominator

/-! ## One grid -/

section OneGrid

variable {b : Binary} {e : Int} {k l : Nat}

theorem value_le_iff : value ⟨k, e⟩ ≤ value ⟨l, e⟩ ↔ k ≤ l := by
  have scale : (0 : ℚ) < 10 ^ e := by positivity
  rw [value, value, mul_le_mul_iff_left₀ scale, Nat.cast_le]

theorem scaled_le_iff (b : Binary) (e : Int) {x y : ℚ} {m n : Nat} (atX : x * denominator b e = m)
    (atY : y * denominator b e = n) : x ≤ y ↔ m ≤ n := by
  have positive : (0 : ℚ) < denominator b e := by exact_mod_cast denominator_pos b e
  rw [← mul_le_mul_iff_left₀ positive, atX, atY, Nat.cast_le]

theorem scaled_lt_iff (b : Binary) (e : Int) {x y : ℚ} {m n : Nat} (atX : x * denominator b e = m)
    (atY : y * denominator b e = n) : x < y ↔ m < n := by
  rw [← not_le, scaled_le_iff b e atY atX, not_le]

/-- **The two points around the number decide.** -/
theorem onGrid?_cases (positive : 0 < b.mantissa) (e : Int) :
    ∃ below : Nat, value ⟨below, e⟩ ≤ b.value ∧ b.value < value ⟨below + 1, e⟩ ∧
      (onGrid? b.interval e = some ⟨below + 1, e⟩ ∧ b.Reads (value ⟨below + 1, e⟩) ∧
          (value ⟨below + 1, e⟩ - b.value ≤ b.value - value ⟨below, e⟩ ∨
            ¬ b.Reads (value ⟨below, e⟩)) ∨
        onGrid? b.interval e = some ⟨below, e⟩ ∧ b.Reads (value ⟨below, e⟩) ∧
          (b.Reads (value ⟨below + 1, e⟩) →
            b.value - value ⟨below, e⟩ < value ⟨below + 1, e⟩ - b.value) ∨
        onGrid? b.interval e = none ∧ ¬ b.Reads (value ⟨below, e⟩) ∧
          ¬ b.Reads (value ⟨below + 1, e⟩)) := by
  let fine := tenTo (-e).toNat
  let coarse := tenTo e.toNat * b.interval.denominator
  let below := b.interval.value * fine / coarse
  have atNumber := number_scaled b e
  have atBelow := value_scaled b e below
  have atAbove := value_scaled b e (below + 1)
  have within : below * coarse ≤ b.interval.value * fine := Nat.div_mul_le_self _ _
  have beyond : b.interval.value * fine < (below + 1) * coarse :=
    Nat.lt_mul_of_div_lt (Nat.lt_succ_self _) (coarse_pos b e)
  have upTo : value ⟨below, e⟩ ≤ b.value := (scaled_le_iff b e atBelow atNumber).2 within
  have past : b.value < value ⟨below + 1, e⟩ := (scaled_lt_iff b e atNumber atAbove).2 beyond
  have fitsBelow : b.Reads (value ⟨below, e⟩) ↔
      if b.interval.closed then b.interval.low * fine ≤ below * coarse
      else b.interval.low * fine < below * coarse := by
    rw [Binary.reads_iff_of_le upTo, scaled_le_iff b e (lower_scaled b e positive) atBelow,
      scaled_lt_iff b e (lower_scaled b e positive) atBelow]
    simp only [Binary.interval, beq_iff_eq, fine, coarse]
  have fitsAbove : b.Reads (value ⟨below + 1, e⟩) ↔
      if b.interval.closed then (below + 1) * coarse ≤ b.interval.high * fine
      else (below + 1) * coarse < b.interval.high * fine := by
    rw [Binary.reads_iff_of_lt past, scaled_le_iff b e atAbove (upper_scaled b e),
      scaled_lt_iff b e atAbove (upper_scaled b e)]
    simp only [Binary.interval, beq_iff_eq, fine, coarse]
  have toAbove : (value ⟨below + 1, e⟩ - b.value) * denominator b e =
      ((below + 1) * coarse - b.interval.value * fine : Nat) := by
    rw [sub_mul, atAbove, atNumber, Nat.cast_sub beyond.le]
  have toBelow : (b.value - value ⟨below, e⟩) * denominator b e =
      (b.interval.value * fine - below * coarse : Nat) := by
    rw [sub_mul, atBelow, atNumber, Nat.cast_sub within]
  have choice := and_congr fitsAbove
    (or_congr (scaled_le_iff b e toAbove toBelow) (not_congr fitsBelow))
  refine ⟨below, upTo, past, ?_⟩
  by_cases takesAbove : b.Reads (value ⟨below + 1, e⟩) ∧
      (value ⟨below + 1, e⟩ - b.value ≤ b.value - value ⟨below, e⟩ ∨
        ¬ b.Reads (value ⟨below, e⟩))
  · exact .inl ⟨if_pos (choice.1 takesAbove), takesAbove⟩
  · by_cases reads : b.Reads (value ⟨below, e⟩)
    · refine .inr (.inl ⟨?_, reads, fun fits => ?_⟩)
      · exact (if_neg (mt choice.2 takesAbove)).trans (if_pos (fitsBelow.1 reads))
      · exact lt_of_not_ge fun nearer => takesAbove ⟨fits, .inl nearer⟩
    · refine .inr (.inr ⟨?_, reads, fun fits => takesAbove ⟨fits, .inr reads⟩⟩)
      exact (if_neg (mt choice.2 takesAbove)).trans (if_neg (mt fitsBelow.2 reads))

/-- Where none of the two is in the interval, no point of the grid is. -/
theorem not_reads_of_onGrid? (positive : 0 < b.mantissa) (none : onGrid? b.interval e = none)
    (k : Nat) : ¬ b.Reads (value ⟨k, e⟩) := by
  intro reads
  obtain ⟨below, upTo, past, ⟨found, -⟩ | ⟨found, -⟩ | ⟨-, notBelow, notAbove⟩⟩ :=
    onGrid?_cases positive e
  · rw [none] at found
    cases found
  · rw [none] at found
    cases found
  · rcases Nat.lt_or_ge below k with above | within
    · exact notAbove (b.reads_value.of_between reads past.le (value_le_iff.2 above))
    · exact notBelow (reads.of_between b.reads_value (value_le_iff.2 within) upTo)

/-- What is found is in the interval, and no point there is nearer. -/
theorem nearest_of_onGrid? (positive : 0 < b.mantissa) {d : Decimal}
    (found : onGrid? b.interval e = some d) :
    d.exponent = e ∧ b.Reads d.value ∧ ∀ k : Nat, b.Reads (value ⟨k, e⟩) →
      |d.value - b.value| ≤ |value ⟨k, e⟩ - b.value| ∧
        (|value ⟨k, e⟩ - b.value| = |d.value - b.value| → k ≤ d.digits) := by
  obtain ⟨below, upTo, past, ⟨found', reads, nearer⟩ | ⟨found', reads, nearer⟩ | ⟨found', -⟩⟩ :=
    onGrid?_cases positive e
  · obtain rfl := Option.some.inj (found.symm.trans found')
    refine ⟨rfl, reads, fun k readsK => ?_⟩
    rw [abs_of_pos (sub_pos.2 past)]
    rcases Nat.lt_or_ge below k with above | within
    · have farther : value ⟨below + 1, e⟩ ≤ value ⟨k, e⟩ := value_le_iff.2 above
      rw [abs_of_pos (sub_pos.2 (past.trans_le farther))]
      refine ⟨by linarith, fun same => ?_⟩
      exact value_le_iff.1 (by linarith)
    · have farther : value ⟨k, e⟩ ≤ value ⟨below, e⟩ := value_le_iff.2 within
      have readsBelow := readsK.of_between b.reads_value farther upTo
      rw [abs_of_nonpos (sub_nonpos.2 (farther.trans upTo))]
      have := nearer.resolve_right (not_not_intro readsBelow)
      exact ⟨by linarith, fun _ => Nat.le_succ_of_le within⟩
  · obtain rfl := Option.some.inj (found.symm.trans found')
    refine ⟨rfl, reads, fun k readsK => ?_⟩
    rw [abs_of_nonpos (sub_nonpos.2 upTo)]
    rcases Nat.lt_or_ge below k with above | within
    · have farther : value ⟨below + 1, e⟩ ≤ value ⟨k, e⟩ := value_le_iff.2 above
      have readsAbove := b.reads_value.of_between readsK past.le farther
      rw [abs_of_pos (sub_pos.2 (past.trans_le farther))]
      have := nearer readsAbove
      exact ⟨by linarith, fun same => absurd same (by linarith)⟩
    · have farther : value ⟨k, e⟩ ≤ value ⟨below, e⟩ := value_le_iff.2 within
      rw [abs_of_nonpos (sub_nonpos.2 (farther.trans upTo))]
      exact ⟨by linarith, fun _ => within⟩
  · rw [found] at found'
    cases found'

end OneGrid

/-! ## All grids -/

section AllGrids

variable {b : Binary} {e : Int}

theorem mem_exponents : e ∈ exponents ↔ -324 ≤ e ∧ e ≤ 309 := by
  simp only [exponents, List.mem_map, List.mem_range]
  constructor
  · rintro ⟨step, few, rfl⟩
    omega
  · rintro ⟨least, greatest⟩
    exact ⟨(309 - e).toNat, by omega, by omega⟩

theorem decreasing_exponents : exponents.Pairwise (· > ·) := by
  refine List.pairwise_map.2 (List.pairwise_lt_range.imp fun earlier => ?_)
  omega

/-- The grids before one are those that are coarser. -/
theorem mem_before_of_coarser {before after : List Int} {coarse : Int}
    (listed : exponents = before ++ e :: after) (coarser : e < coarse) (within : coarse ≤ 309) :
    coarse ∈ before := by
  have range := mem_exponents.1 (listed ▸ List.mem_append_right before List.mem_cons_self)
  have member := mem_exponents.2 ⟨range.1.trans coarser.le, within⟩
  have decreasing := decreasing_exponents
  rw [listed] at member decreasing
  have later := (List.pairwise_cons.1 (List.pairwise_append.1 decreasing).2.1).1
  rcases List.mem_append.1 member with isBefore | behind
  · exact isBefore
  · rcases List.mem_cons.1 behind with rfl | isAfter
    · exact absurd coarser (lt_irrefl _)
    · exact absurd coarser (not_lt_of_gt (later coarse isAfter))

theorem two_pow_lt_finest : 2 ^ 1075 < 10 ^ 324 := by decide +kernel

theorem two_pow_lt_coarsest : 2 ^ 1024 < 10 ^ 309 := by decide +kernel

/-- The finest grid is finer than half the last place. -/
theorem finest_lt (double : b.IsDouble) : (10 : ℚ) ^ (-324 : ℤ) < 1 / 2 * 2 ^ b.exponent := by
  have compare : (2 : ℚ) ^ 1075 < 10 ^ 324 := by exact_mod_cast two_pow_lt_finest
  calc (10 : ℚ) ^ (-324 : ℤ)
      = (10 ^ 324)⁻¹ := by rw [zpow_neg, zpow_ofNat]
    _ < (2 ^ 1075)⁻¹ := inv_strictAnti₀ (pow_pos two_pos _) compare
    _ = 1 / 2 * 2 ^ (-1074 : ℤ) := by
        rw [zpow_neg, zpow_ofNat, pow_succ, mul_inv, mul_comm, one_div]
    _ ≤ 1 / 2 * 2 ^ b.exponent :=
        mul_le_mul_of_nonneg_left (zpow_le_zpow_right₀ one_le_two double.least) (by norm_num)

/-- The coarsest grid has its first point beyond every number. -/
theorem upper_lt (double : b.IsDouble) : b.upper < (10 : ℚ) ^ (309 : ℤ) := by
  have compare : (2 : ℚ) ^ 1024 < 10 ^ 309 := by exact_mod_cast two_pow_lt_coarsest
  have whole : (b.mantissa : ℚ) + 1 ≤ 2 ^ 53 := by exact_mod_cast double.mantissa
  have scale : (2 : ℚ) ^ b.exponent ≤ 2 ^ (971 : ℤ) :=
    zpow_le_zpow_right₀ one_le_two double.greatest
  calc b.upper
      ≤ 2 ^ 53 * 2 ^ (971 : ℤ) :=
        mul_le_mul (by linarith) scale (zpow_nonneg zero_le_two _) (by norm_num)
    _ = 2 ^ 1024 := by
        rw [zpow_ofNat]
        exact (pow_add 2 53 971).symm
    _ < 10 ^ 309 := compare
    _ = 10 ^ (309 : ℤ) := (zpow_ofNat 10 309).symm

theorem not_reads_zero (positive : 0 < b.mantissa) : ¬ b.Reads (value ⟨0, e⟩) := by
  intro reads
  have mantissa : (1 : ℚ) ≤ b.mantissa := by exact_mod_cast positive
  have scale : (0 : ℚ) < 2 ^ b.exponent := by positivity
  have above : 0 < b.lower := mul_pos (by split <;> linarith) scale
  have := reads.bounds.1
  rw [value, Nat.cast_zero, zero_mul] at this
  linarith

theorem not_reads_of_coarse (double : b.IsDouble) (coarse : 309 < e) (k : Nat) :
    ¬ b.Reads (value ⟨k, e⟩) := by
  cases k with
  | zero => exact not_reads_zero double.positive
  | succ k =>
    intro reads
    have first : (10 : ℚ) ^ (309 : ℤ) ≤ 10 ^ e := zpow_le_zpow_right₀ (by norm_num) coarse.le
    have scale : (0 : ℚ) < 10 ^ e := by positivity
    have further : (10 : ℚ) ^ e ≤ value ⟨k + 1, e⟩ :=
      le_mul_of_one_le_left scale.le (by exact_mod_cast Nat.succ_pos k)
    have := upper_lt double
    have := reads.bounds.2
    linarith

theorem onGrid?_finest_ne_none (double : b.IsDouble) : onGrid? b.interval (-324) ≠ none := by
  intro none
  obtain ⟨below, upTo, past, -⟩ := onGrid?_cases double.positive (-324)
  refine not_reads_of_onGrid? double.positive none (below + 1) ?_
  have next : value ⟨below + 1, -324⟩ = value ⟨below, -324⟩ + 10 ^ (-324 : ℤ) := by
    rw [value, value, Nat.cast_succ, add_one_mul]
  have half : b.upper = b.value + 1 / 2 * 2 ^ b.exponent := by
    rw [Binary.upper, Binary.value, add_mul]
  have := finest_lt double
  exact Binary.reads_of_lt (Binary.lower_lt_value.trans past) (by linarith)

/-- **The shortest text that reads back.** -/
theorem shortest_spec (double : b.IsDouble) : (shortest b).IsShortest b := by
  obtain ⟨d, found⟩ : ∃ d, exponents.findSome? (onGrid? b.interval) = some d := by
    refine Option.isSome_iff_exists.1 (List.findSome?_isSome_iff.2 ⟨-324, ?_, ?_⟩)
    · exact mem_exponents.2 ⟨le_refl _, by norm_num⟩
    · exact Option.isSome_iff_ne_none.2 (onGrid?_finest_ne_none double)
  obtain ⟨before, e, after, listed, onGrid, earlier⟩ := List.findSome?_eq_some_iff.1 found
  obtain ⟨rfl, reads, nearest⟩ := nearest_of_onGrid? double.positive onGrid
  have chosen : shortest b = d := by rw [shortest, found, Option.getD_some]
  rw [chosen]
  refine ⟨reads, fun other coarser => ?_, fun other same readsOther => ?_,
    fun other same readsOther asNear => ?_⟩
  · obtain ⟨k, e⟩ := other
    rcases lt_or_ge 309 e with beyond | within
    · exact not_reads_of_coarse double beyond k
    · have isBefore := mem_before_of_coarser listed coarser within
      exact not_reads_of_onGrid? double.positive (earlier e isBefore) k
  · obtain ⟨k, e⟩ := other
    obtain rfl : e = d.exponent := same
    exact (nearest k readsOther).1
  · obtain ⟨k, e⟩ := other
    obtain rfl : e = d.exponent := same
    exact (nearest k readsOther).2 asNear

end AllGrids

/-- One and a half, the least positive number, and one midway between two points. -/
example : shortest ⟨3, -1, false⟩ = ⟨15, -1⟩ ∧ shortest ⟨1, -1074, false⟩ = ⟨5, -324⟩ ∧
    shortest ⟨twoTo 52 + 1, -2, false⟩ = ⟨11258999068426243, -1⟩ := by decide +kernel

/-! ## All places -/

section Places

variable {d : Decimal}

theorem toList_zeros (count : Nat) : (zeros count).toList = List.replicate count '0' :=
  String.toList_ofList

theorem toList_toString (n : Nat) : (toString n).toList = Nat.toDigits 10 n :=
  Nat.toList_repr

theorem positional_of_nonneg (noPlaces : 0 ≤ d.exponent) :
    d.positional.toList = Nat.toDigits 10 d.digits ++ List.replicate d.exponent.toNat '0' := by
  rw [positional, if_pos noPlaces, String.toList_append, toList_toString, toList_zeros]

theorem positional_of_neg (places : d.exponent < 0) :
    d.positional.toList = Nat.toDigits 10 (d.digits / 10 ^ (-d.exponent).toNat) ++
      '.' :: (List.replicate ((-d.exponent).toNat -
          (Nat.toDigits 10 (d.digits % 10 ^ (-d.exponent).toNat)).length) '0' ++
        Nat.toDigits 10 (d.digits % 10 ^ (-d.exponent).toNat)) := by
  have digits (n : Nat) : (toString n).length = (Nat.toDigits 10 n).length := by
    rw [← String.length_toList, toList_toString]
  rw [positional, if_neg (not_le.2 places)]
  simp only [String.toList_append, toList_toString, toList_zeros, digits, tenTo_eq,
    List.append_assoc]
  rfl

theorem value_of_nonneg (noPlaces : 0 ≤ d.exponent) :
    d.value = (10 ^ d.exponent.toNat * d.digits : Nat) := by
  have scale := zpow_mul_pow 10 (by norm_num) d.exponent
  rw [show (-d.exponent).toNat = 0 by omega, pow_zero, Nat.cast_one, mul_one] at scale
  rw [Nat.cast_mul, ← scale, mul_comm]
  rfl

theorem value_of_neg (places : d.exponent < 0) :
    d.value = d.digits / 10 ^ (-d.exponent).toNat := by
  have scale := zpow_mul_pow 10 (by norm_num) d.exponent
  rw [show d.exponent.toNat = 0 by omega] at scale
  push_cast at scale
  rw [value, eq_div_iff (pow_ne_zero _ (by norm_num)), mul_assoc, scale, mul_one]

/-- **All places are written out.** The text is the decimal's digits, with as many behind
the point as it has places; without places there is no point. -/
theorem positional_reads (d : Decimal) :
    ∃ whole fraction : List Char,
      d.positional.toList = (if 0 ≤ d.exponent then whole else whole ++ '.' :: fraction) ∧
      (∀ c ∈ whole ++ fraction, c.isDigit = true) ∧ whole ≠ [] ∧
      fraction.length = (-d.exponent).toNat ∧
      d.value = Nat.ofDigitChars 10 (whole ++ fraction) 0 / 10 ^ fraction.length := by
  have isDigit : ∀ n : Nat, ∀ c ∈ Nat.toDigits 10 n, c.isDigit = true :=
    fun n c => Nat.isDigit_of_mem_toDigits (by norm_num) le_rfl
  have isZero : ∀ n : Nat, ∀ c ∈ List.replicate n '0', c.isDigit = true := by
    intro n c listed
    rw [List.eq_of_mem_replicate listed]
    rfl
  rcases le_or_gt 0 d.exponent with noPlaces | places
  · refine ⟨_, [], by rw [if_pos noPlaces, positional_of_nonneg noPlaces], ?_, ?_, ?_, ?_⟩
    · rw [List.append_nil]
      exact List.forall_mem_append.2 ⟨isDigit _, isZero _⟩
    · exact List.append_ne_nil_of_left_ne_nil Nat.toDigits_ne_nil _
    · rw [List.length_nil]
      omega
    · rw [List.append_nil, Nat.ofDigitChars_append, Nat.ofDigitChars_ten_toDigits,
        Nat.ofDigitChars_replicate_zero, List.length_nil, pow_zero, div_one,
        value_of_nonneg noPlaces]
  · have somePlaces : 0 < (-d.exponent).toNat := by omega
    have shown := positional_of_neg places
    have atPlaces := value_of_neg places
    generalize (-d.exponent).toNat = p at shown atPlaces somePlaces ⊢
    have fits : (Nat.toDigits 10 (d.digits % 10 ^ p)).length ≤ p :=
      (Nat.length_toDigits_le_iff (by norm_num) somePlaces).2
        (Nat.mod_lt _ (Nat.pow_pos (by norm_num)))
    refine ⟨_, _, by rw [if_neg (not_le.2 places), shown], ?_, Nat.toDigits_ne_nil, ?_, ?_⟩
    · simp only [List.forall_mem_append]
      exact ⟨isDigit _, isZero _, isDigit _⟩
    · rw [List.length_append, List.length_replicate, Nat.sub_add_cancel fits]
    · rw [Nat.ofDigitChars_append, Nat.ofDigitChars_ten_toDigits,
        Nat.ofDigitChars_eq_ofDigitChars_zero, List.length_append, List.length_replicate,
        Nat.sub_add_cancel fits, Nat.ofDigitChars_append, Nat.ofDigitChars_replicate_zero, mul_zero,
        Nat.ofDigitChars_ten_toDigits, Nat.div_add_mod, atPlaces]

example : positional ⟨12, 3⟩ = "12000" ∧ positional ⟨105, -4⟩ = "0.0105" := by decide +kernel

end Places

end Decimal

/-! ## Doubles -/

section Doubles

open Float.Model (Format)
open Float.Model.UnpackedFloat

/-- The parts of a double's bits. -/
theorem toNat_packComponents (s : Sign) (e : BitVec 11) (m : BitVec 52) :
    (packComponents Format.binary64 s e m).toNat =
      s.toBitVec.toNat * 2 ^ 63 + e.toNat * 2 ^ 52 + m.toNat := by
  show (s.toBitVec ++ e ++ m).toNat = _
  rw [BitVec.toNat_append, ← Nat.shiftLeft_add_eq_or_of_lt m.isLt, BitVec.toNat_append,
    ← Nat.shiftLeft_add_eq_or_of_lt e.isLt, Nat.shiftLeft_eq, Nat.shiftLeft_eq]
  ring

/-- The sign in front. -/
def signText : Sign → String
  | .positive => ""
  | .negative => "-"

theorem decimal_of_parts {p : Float} {s : Sign} {e : BitVec 11} {m : BitVec 52}
    (parts : packComponents Format.binary64 s e m = p.toModel.toBits.toBitVec)
    (usual : e.toNat < 2047) :
    decimal p =
      if e.toNat = 0 then
        if m.toNat = 0 then signText s ++ "0"
        else signText s ++ (Decimal.shortest ⟨m.toNat, -1074, false⟩).positional
      else signText s ++
        (Decimal.shortest ⟨2 ^ 52 + m.toNat, e.toNat - 1075, m.toNat == 0⟩).positional := by
  have bits : p.toBits.toNat = s.toBitVec.toNat * 2 ^ 63 + e.toNat * 2 ^ 52 + m.toNat :=
    (congrArg BitVec.toNat parts.symm).trans (toNat_packComponents s e m)
  have inside : m.toNat < 2 ^ 52 := m.isLt
  have exponent : p.toBits.toNat / 2 ^ 52 % 2 ^ 11 = e.toNat := by omega
  have fraction : p.toBits.toNat % 2 ^ 52 = m.toNat := by omega
  have sign : p.toBits.toNat / 2 ^ 63 = s.toBitVec.toNat := by
    have one := s.toBitVec.isLt
    omega
  rw [decimal]
  simp only [Decimal.twoTo_eq, sign, exponent, fraction]
  rw [if_neg usual.ne]
  cases s <;> rfl

/-- **Numbers in figures.** The text of a number that is neither zero nor infinite is its
sign and its shortest decimal, with all places. The least mantissa is `2 ^ 52`. -/
theorem decimal_of_finite {p : Float} {s : Sign} {m : Nat} {e : Int} {positive : 0 < m}
    (unpacked : p.toModel.unpack = .finite s m e positive) :
    ∃ d : Decimal, d.IsShortest ⟨m, e, m == 2 ^ 52⟩ ∧ decimal p = signText s ++ d.positional := by
  obtain ⟨s', e', m', parts⟩ : ∃ s e m,
      packComponents Format.binary64 s e m = p.toModel.toBits.toBitVec :=
    ⟨_, _, _, @packComponents_unpackSign_unpackExponent_unpackMantissa Format.binary64 _⟩
  have inside : m'.toNat < 2 ^ 52 := m'.isLt
  rw [Float.Model.unpack, ← parts] at unpacked
  rcases Fraction.kinds s' e' m' with special | ⟨rfl, rfl⟩ | ⟨rfl, positive'⟩ | ⟨smallest, usual⟩
  · rw [unpacked] at special
    cases special
  · rw [Fraction.unpack_zero] at unpacked
    cases unpacked
  · rw [Fraction.unpack_subnormal positive'] at unpacked
    cases unpacked
    have double : Binary.IsDouble ⟨m'.toNat, -1074, m'.toNat == 2 ^ 52⟩ :=
      ⟨positive', by dsimp only; omega, le_refl _, by norm_num⟩
    refine ⟨_, Decimal.shortest_spec double, ?_⟩
    have notLeast : (m'.toNat == 2 ^ 52) = false := by simpa using inside.ne
    have lowest : (0#11).toNat = 0 := rfl
    rw [decimal_of_parts parts (by decide), if_pos lowest, if_neg positive.ne', notLeast]
  · rw [Fraction.unpack_normal smallest usual] at unpacked
    cases unpacked
    have double : Binary.IsDouble
        ⟨2 ^ 52 + m'.toNat, e'.toNat - 1075, 2 ^ 52 + m'.toNat == 2 ^ 52⟩ :=
      ⟨positive, by dsimp only; omega, by dsimp only; omega, by dsimp only; omega⟩
    refine ⟨_, Decimal.shortest_spec double, ?_⟩
    have isLeast : (2 ^ 52 + m'.toNat == 2 ^ 52) = (m'.toNat == 0) := by
      rw [Bool.eq_iff_iff, beq_iff_eq, beq_iff_eq]
      omega
    rw [decimal_of_parts parts usual, if_neg smallest.ne', isLeast]

example : decimal 0.1 = "0.1" ∧ decimal (-1.5) = "-1.5" := by decide +kernel

end Doubles

end SafePlan.Text
