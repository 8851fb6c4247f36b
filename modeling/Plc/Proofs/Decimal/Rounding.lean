import Mathlib.Algebra.Order.Field.Basic
import Mathlib.Algebra.Order.Field.Power
import Mathlib.Tactic.FieldSimp
import Mathlib.Tactic.Linarith
import Mathlib.Tactic.Ring
import Plc.Decimal.Division

/-! What it means that a number is rounded to an integer, and that a decimal is rounded to a scale.
The rules say nothing of how it is done. -/
namespace Plc.Decimal

def value (a : Decimal) : ℚ := a.digits * 10 ^ (-a.scale)

/-- An integer next to `x`. Midway between two it is the one that `favours` picks. -/
structure Rounded (favours : ℚ → ℤ → Prop) (x : ℚ) (n : ℤ) : Prop where
  near : |x - n| ≤ 1 / 2
  tie : |x - n| = 1 / 2 → favours x n

def HalfEven : ℚ → ℤ → Prop := Rounded fun _ n => Even n

def HalfUp : ℚ → ℤ → Prop := Rounded fun x n => |x| < |n|

section Rules

variable {favours : ℚ → ℤ → Prop} {x : ℚ} {m n : ℤ}

theorem rounded_intCast (favours : ℚ → ℤ → Prop) (n : ℤ) : Rounded favours n n := by
  constructor
  · norm_num
  · intro half
    norm_num at half

theorem Rounded.neg (mirrored : ∀ x n, favours x n → favours (-x) (-n))
    (rounded : Rounded favours x n) : Rounded favours (-x) (-n) := by
  have same : |-x - ((-n : ℤ) : ℚ)| = |x - n| := by
    rw [← abs_neg]
    congr 1
    push_cast
    ring
  constructor
  · rw [same]
    exact rounded.near
  · intro half
    rw [same] at half
    exact mirrored x n (rounded.tie half)

theorem Rounded.sign_mul (mirrored : ∀ x n, favours x n → favours (-x) (-n)) (m : ℤ)
    (rounded : Rounded favours x n) : Rounded favours (m.sign * x) (m.sign * n) := by
  rcases Int.sign_trichotomy m with positive | zero | negative
  · simpa [positive] using rounded
  · simpa [zero] using rounded_intCast favours 0
  · simpa [negative] using rounded.neg mirrored

theorem HalfEven.sign_mul (m : ℤ) (rounded : HalfEven x n) : HalfEven (m.sign * x) (m.sign * n) :=
  Rounded.sign_mul (fun _ _ even => even.neg) m rounded

theorem HalfUp.sign_mul (m : ℤ) (rounded : HalfUp x n) : HalfUp (m.sign * x) (m.sign * n) :=
  Rounded.sign_mul (fun x n above => by simpa using above) m rounded

/-- No number is rounded to two integers. -/
theorem HalfEven.unique (first : HalfEven x m) (second : HalfEven x n) : m = n := by
  by_contra differ
  wlog less : m < n generalizing m n
  · exact this second first (Ne.symm differ) (lt_of_le_of_ne (not_lt.mp less) (Ne.symm differ))
  obtain ⟨_, below⟩ := abs_le.mp first.near
  obtain ⟨above, _⟩ := abs_le.mp second.near
  have next : (m : ℚ) + 1 ≤ n := by exact_mod_cast less
  have midway : x = m + 1 / 2 := by linarith
  have apart : (n : ℚ) = m + 1 := by linarith
  have evenFirst : Even m := first.tie (by rw [midway]; norm_num)
  have evenSecond : Even n := second.tie (by rw [midway, apart]; norm_num)
  have successor : n = m + 1 := by exact_mod_cast apart
  rw [successor, Int.even_add_one] at evenSecond
  exact evenSecond evenFirst

end Rules

section Fractions

variable {num den n : ℤ}

theorem abs_div_sub (other : den ≠ 0) :
    |(num / den : ℚ) - n| = ((|num - n * den| : ℤ) : ℚ) / |(den : ℚ)| := by
  have divisor : (den : ℚ) ≠ 0 := Int.cast_ne_zero.mpr other
  have joined : (num / den : ℚ) - n = ((num - n * den : ℤ) : ℚ) / den := by
    push_cast
    field_simp
  rw [joined, abs_div, Int.cast_abs]

/-- A fraction is rounded right if what is left of the numerator is at most half the
denominator. -/
theorem halfEven_div (other : den ≠ 0) (near : 2 * |num - n * den| ≤ |den|)
    (tie : 2 * |num - n * den| = |den| → Even n) : HalfEven (num / den) n := by
  have positive : (0 : ℚ) < |(den : ℚ)| := abs_pos.mpr (Int.cast_ne_zero.mpr other)
  constructor
  · rw [abs_div_sub other, div_le_div_iff₀ positive two_pos, mul_comm, one_mul]
    exact_mod_cast near
  · intro half
    rw [abs_div_sub other, div_eq_div_iff positive.ne' two_ne_zero, mul_comm, one_mul] at half
    exact tie (by exact_mod_cast half)

/-- A fraction that is more than a half away from an integer is so by at least half a part of its
denominator. -/
theorem add_one_le_of_half_lt (other : den ≠ 0) (off : 1 / 2 < |(num / den : ℚ) - n|) :
    |(den : ℚ)| + 1 ≤ 2 * (|(num / den : ℚ) - n| * |(den : ℚ)|) := by
  have positive : (0 : ℚ) < |(den : ℚ)| := abs_pos.mpr (Int.cast_ne_zero.mpr other)
  rw [abs_div_sub other, div_mul_cancel₀ _ positive.ne']
  rw [abs_div_sub other, div_lt_div_iff₀ two_pos positive, one_mul, mul_comm] at off
  have apart : |den| < 2 * |num - n * den| := by exact_mod_cast off
  exact_mod_cast Int.add_one_le_iff.mpr apart

theorem halfEven_roundHalfEven (num : ℕ) {den : ℕ} (positive : 0 < den) :
    HalfEven (num / den) (roundHalfEven num den) := by
  have split : (num : ℤ) = (num / den : ℕ) * den + (num % den : ℕ) := by
    rw [mul_comm]
    exact_mod_cast (Nat.div_add_mod num den).symm
  have small : num % den < den := Nat.mod_lt num positive
  rw [← Int.cast_natCast num, ← Int.cast_natCast den]
  unfold roundHalfEven
  generalize num / den = quotient at split
  generalize num % den = rest at split small
  dsimp only
  -- The remainder is less than half the denominator, more, or half of it.
  split_ifs with below above
  · have left : (num : ℤ) - quotient * den = rest := by omega
    apply halfEven_div (by omega) <;> rw [left, Nat.abs_cast, Nat.abs_cast] <;> omega
  · have left : (num : ℤ) - ((quotient + 1 : ℕ) : ℤ) * den = rest - den := by
      push_cast
      linarith
    apply halfEven_div (by omega) <;> rw [left, abs_of_neg (by omega), Nat.abs_cast] <;> omega
  · have even : Even ((quotient + quotient % 2 : ℕ) : ℤ) :=
      ⟨((quotient + quotient % 2) / 2 : ℕ), by omega⟩
    have left : (num : ℤ) - ((quotient + quotient % 2 : ℕ) : ℤ) * den = rest ∨
        (num : ℤ) - ((quotient + quotient % 2 : ℕ) : ℤ) * den = -rest := by
      rcases Nat.mod_two_eq_zero_or_one quotient with evenQuotient | oddQuotient
      · rw [evenQuotient, Nat.add_zero]
        exact .inl (by omega)
      · rw [oddQuotient]
        push_cast
        exact .inr (by linarith [show (2 * rest : ℤ) = den by omega])
    apply halfEven_div (by omega) _ fun _ => even
    rw [abs_eq_abs.mpr left, Nat.abs_cast, Nat.abs_cast]
    omega

end Fractions

section Scales

variable {a : Decimal} {scale : ℤ}

theorem mul_pow_eq (x : ℚ) (first last : ℤ) :
    x * 10 ^ last = x * 10 ^ first * 10 ^ (last - first) := by
  rw [mul_assoc, ← zpow_add₀ (by norm_num), add_sub_cancel]

theorem value_mul_pow (a : Decimal) (scale : ℤ) :
    a.value * 10 ^ scale = a.digits * 10 ^ (scale - a.scale) := by
  unfold value
  rw [mul_assoc, ← zpow_add₀ (by norm_num), neg_add_eq_sub]

theorem value_mul_pow_self (a : Decimal) : a.value * 10 ^ a.scale = a.digits := by
  rw [value_mul_pow, sub_self, zpow_zero, mul_one]

theorem value_mul_pow_of_le (le : a.scale ≤ scale) : a.value * 10 ^ scale = a.digitsAt scale := by
  obtain ⟨zeros, rfl⟩ := Int.le.dest le
  rw [value_mul_pow, digitsAt_eq, add_sub_cancel_left, zpow_natCast, Int.toNat_natCast]
  exact_mod_cast rfl

theorem value_mul_pow_of_lt (lt : scale < a.scale) :
    a.value * 10 ^ scale =
      a.digits.sign * (a.digits.natAbs / ((10 ^ (a.scale - scale).toNat : ℕ) : ℚ)) := by
  have places : scale - a.scale = -((a.scale - scale).toNat : ℤ) := by omega
  rw [value_mul_pow, places, zpow_neg, zpow_natCast, ← mul_div_assoc, div_eq_mul_inv]
  congr 1
  · rw [← Int.cast_natCast a.digits.natAbs, ← Int.cast_mul, Int.sign_mul_natAbs]
  · push_cast
    rfl

theorem rescale_scale (a : Decimal) (scale : ℤ) : (a.rescale scale).scale = scale := by
  unfold rescale
  split <;> rfl

/-- Writing a decimal at a scale rounds it to that scale. -/
theorem halfEven_rescale (a : Decimal) (scale : ℤ) :
    HalfEven (a.value * 10 ^ scale) (a.rescale scale).digits := by
  unfold rescale
  split
  next le =>
    rw [value_mul_pow_of_le le]
    exact rounded_intCast _ _
  next gt =>
    rw [value_mul_pow_of_lt (not_le.mp gt), dropDigits_eq]
    exact (halfEven_roundHalfEven _ (Nat.pow_pos (by decide))).sign_mul a.digits

end Scales

end Plc.Decimal
