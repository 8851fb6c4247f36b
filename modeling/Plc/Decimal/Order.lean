import Plc.Decimal

/-! The order of decimals. Two scales may lie so far apart that the digits at a common one could not
be held, so they are brought to one only where nothing else tells the numbers apart. -/
namespace Plc.Decimal

/-- How many places the first digit stands before the point. -/
def lead (a : Decimal) : Int := digitCount a.digits.natAbs - a.scale

def rank (a : Decimal) : Int := a.digits.sign * a.lead

/-- The order of the numbers, whatever their scales. Only two numbers of one sign whose first
digits stand at the same place are told apart by the digits behind. -/
def compare (a b : Decimal) : Ordering :=
  (Ord.compare a.digits.sign b.digits.sign).then <|
    (Ord.compare a.rank b.rank).then <|
      let scale := max a.scale b.scale
      Ord.compare (a.digitsAt scale) (b.digitsAt scale)

theorem sign_digitsAt (a : Decimal) (scale : Int) : (a.digitsAt scale).sign = a.digits.sign := by
  have positive : 0 < Int.pow 10 (scale - a.scale).toNat := Int.pow_pos (by decide)
  rw [digitsAt_eq, Int.sign_mul, Int.sign_eq_one_of_pos positive, Int.mul_one]

theorem natAbs_digitsAt (a : Decimal) (scale : Int) :
    (a.digitsAt scale).natAbs = a.digits.natAbs * Nat.pow 10 (scale - a.scale).toNat := by
  rw [digitsAt_eq, Int.natAbs_mul]
  exact congrArg (a.digits.natAbs * ·) (Int.natAbs_pow 10 _)

theorem natAbs_digitsAt_lt {a b : Decimal} {scale : Int} (other : b.digits ≠ 0)
    (left : a.scale ≤ scale) (right : b.scale ≤ scale) (before : a.lead < b.lead) :
    (a.digitsAt scale).natAbs < (b.digitsAt scale).natAbs := by
  simp only [lead] at before
  rw [natAbs_digitsAt, natAbs_digitsAt]
  have positive : 0 < b.digits.natAbs := by omega
  generalize a.digits.natAbs = x at *
  generalize b.digits.natAbs = y at *
  have x_digit : 0 < digitCount x := Nat.length_toDigits_pos
  have y_digit : 0 < digitCount y := Nat.length_toDigits_pos
  obtain ⟨rest, count⟩ : ∃ rest, digitCount y = rest + 1 := ⟨digitCount y - 1, by omega⟩
  have x_lt : x < 10 ^ digitCount x := (lt_pow_iff_digitCount_le x_digit).2 (Nat.le_refl _)
  have le_y : 10 ^ rest ≤ y := by
    have lead := pow_le_of_pos positive
    rwa [count] at lead
  calc x * 10 ^ (scale - a.scale).toNat
      < 10 ^ digitCount x * 10 ^ (scale - a.scale).toNat :=
        Nat.mul_lt_mul_of_pos_right x_lt (Nat.pow_pos (by decide))
    _ = 10 ^ (digitCount x + (scale - a.scale).toNat) := (Nat.pow_add ..).symm
    _ ≤ 10 ^ (rest + (scale - b.scale).toNat) := Nat.pow_le_pow_right (by decide) (by omega)
    _ = 10 ^ rest * 10 ^ (scale - b.scale).toNat := Nat.pow_add ..
    _ ≤ y * 10 ^ (scale - b.scale).toNat := Nat.mul_le_mul_right _ le_y

theorem digitsAt_lt_of_sign_lt {a b : Decimal} (scale : Int)
    (before : a.digits.sign < b.digits.sign) : a.digitsAt scale < b.digitsAt scale := by
  rw [← sign_digitsAt a scale, ← sign_digitsAt b scale] at before
  rcases Int.lt_trichotomy (a.digitsAt scale) 0 with neg | zero | pos
  · rw [Int.sign_eq_neg_one_of_neg neg] at before
    have : 0 ≤ b.digitsAt scale := Int.sign_nonneg_iff.1 (by omega)
    omega
  · rw [zero, Int.sign_zero] at before
    rw [zero]
    exact Int.sign_pos_iff.1 before
  · rw [Int.sign_eq_one_of_pos pos] at before
    have := Int.sign_trichotomy (b.digitsAt scale)
    omega

theorem digitsAt_lt_of_rank_lt {a b : Decimal} {scale : Int} (left : a.scale ≤ scale)
    (right : b.scale ≤ scale) (same : a.digits.sign = b.digits.sign) (before : a.rank < b.rank) :
    a.digitsAt scale < b.digitsAt scale := by
  have a_sign := sign_digitsAt a scale
  have b_sign := sign_digitsAt b scale
  unfold rank at before
  rcases Int.sign_trichotomy b.digits with pos | zero | neg
  · rw [same, pos] at before a_sign
    rw [pos] at b_sign
    have other : b.digits ≠ 0 := Int.ne_of_gt (Int.pos_of_sign_eq_one pos)
    have := natAbs_digitsAt_lt other left right (by omega)
    have := Int.pos_of_sign_eq_one a_sign
    have := Int.pos_of_sign_eq_one b_sign
    omega
  · rw [same, zero, Int.zero_mul, Int.zero_mul] at before
    exact absurd before (Int.lt_irrefl 0)
  · rw [same, neg] at before a_sign
    rw [neg] at b_sign
    have other : a.digits ≠ 0 := Int.ne_of_lt (Int.neg_of_sign_eq_neg_one (same.trans neg))
    have := natAbs_digitsAt_lt other right left (by omega)
    have := Int.neg_of_sign_eq_neg_one a_sign
    have := Int.neg_of_sign_eq_neg_one b_sign
    omega

/-- Numbers are ordered as their digits are at a common scale. -/
theorem compare_eq (a b : Decimal) :
    a.compare b =
      Ord.compare (a.digitsAt (max a.scale b.scale)) (b.digitsAt (max a.scale b.scale)) := by
  unfold compare
  rcases Int.lt_trichotomy a.digits.sign b.digits.sign with lt | same | gt
  · rw [Int.compare_eq_lt.2 lt, Int.compare_eq_lt.2 (digitsAt_lt_of_sign_lt _ lt)]
    rfl
  · rw [Int.compare_eq_eq.2 same]
    rcases Int.lt_trichotomy a.rank b.rank with lt | eq | gt
    · rw [Int.compare_eq_lt.2 lt,
        Int.compare_eq_lt.2 (digitsAt_lt_of_rank_lt (by omega) (by omega) same lt)]
      rfl
    · rw [Int.compare_eq_eq.2 eq]; rfl
    · rw [Int.compare_eq_gt.2 gt,
        Int.compare_eq_gt.2 (digitsAt_lt_of_rank_lt (by omega) (by omega) same.symm gt)]
      rfl
  · rw [Int.compare_eq_gt.2 gt, Int.compare_eq_gt.2 (digitsAt_lt_of_sign_lt _ gt)]
    rfl

end Plc.Decimal
