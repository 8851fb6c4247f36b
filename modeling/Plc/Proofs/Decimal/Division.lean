import Plc.Proofs.Decimal.Rounding
import Plc.Value.Operation

/-! Division of decimals rounds twice, first to a hundred digits and then to the scale of the
dividend, and the first rounding can mislead the second. -/
namespace Plc.Decimal

section Quotients

variable {num den : ℕ} {scale : ℤ} {q : Quotient}

/-- `q` is how far `num / den` has been worked out with some zeros appended to `num`, each of them
counted in the scale. -/
def Quotient.Tracks (q : Quotient) (num den : ℕ) (scale : ℤ) : Prop :=
  ∃ zeros : ℕ, q.scale = scale + zeros ∧ num * 10 ^ zeros = q.digits * den + q.remainder ∧
    q.remainder < den

theorem raise_spec (positive : 0 < num) (den : ℕ) (scale : ℤ) :
    ∃ zeros : ℕ, raise num den scale = (num * 10 ^ zeros, scale + zeros) ∧
      den ≤ num * 10 ^ zeros := by
  fun_induction raise num den scale with
  | case1 num scale small ih =>
    obtain ⟨zeros, raised, enough⟩ := ih (by omega)
    refine ⟨zeros + 1, ?_, ?_⟩
    · rw [raised, pow_succ']
      congr 1
      · ring
      · push_cast
        ring
    · calc den ≤ num * 10 * 10 ^ zeros := enough
        _ = num * 10 ^ (zeros + 1) := by ring
  | case2 num scale large => exact ⟨0, by simp, by omega⟩

/-- One more digit. -/
theorem Quotient.Tracks.next (tracks : q.Tracks num den scale) :
    Quotient.Tracks ⟨q.digits * 10 + q.remainder * 10 / den, q.remainder * 10 % den, q.scale + 1⟩
      num den scale := by
  obtain ⟨zeros, counted, worked, small⟩ := tracks
  refine ⟨zeros + 1, ?_, ?_, Nat.mod_lt _ (by omega)⟩
  · rw [counted]
    push_cast
    ring
  · calc num * 10 ^ (zeros + 1)
        = num * 10 ^ zeros * 10 := by ring
      _ = q.digits * 10 * den + q.remainder * 10 := by rw [worked]; ring
      _ = (q.digits * 10 + q.remainder * 10 / den) * den + q.remainder * 10 % den := by
        rw [add_mul, add_assoc, Nat.div_add_mod']

theorem Quotient.Tracks.extend (count : ℕ) (tracks : q.Tracks num den scale) :
    (Quotient.extend den count q).Tracks num den scale := by
  fun_induction Quotient.extend den count q with
  | case1 q => exact tracks
  | case2 count q ended => exact tracks
  | case3 count q more ih => exact ih tracks.next

/-- Digits stop being added before they are all there only if nothing is left. -/
theorem Quotient.extend_long (den count : ℕ) (q : Quotient) :
    (Quotient.extend den count q).remainder = 0 ∨
      q.digits * 10 ^ count ≤ (Quotient.extend den count q).digits := by
  fun_induction Quotient.extend den count q with
  | case1 q => exact .inr (by simp)
  | case2 count q ended => exact .inl ended
  | case3 count q more ih =>
    refine ih.imp_right fun long => ?_
    calc q.digits * 10 ^ (count + 1)
        = q.digits * 10 * 10 ^ count := by ring
      _ ≤ (q.digits * 10 + q.remainder * 10 / den) * 10 ^ count := by
        gcongr
        exact Nat.le_add_right _ _
      _ ≤ _ := long

/-- The digit behind the last one tells on which side of a half the rest is. -/
theorem halfUp_div {digits rest : ℕ} (small : rest < den) :
    HalfUp (((digits * den + rest : ℕ) : ℚ) / den)
      (if 5 ≤ rest * 10 / den then digits + 1 else digits : ℕ) := by
  have divisor : (0 : ℚ) < den := by exact_mod_cast (show 0 < den by omega)
  have split : ((digits * den + rest : ℕ) : ℚ) / den = digits + rest / den := by
    push_cast
    field_simp
  have part : (0 : ℚ) ≤ rest / den := by positivity
  rw [split]
  split_ifs with up <;> rw [Nat.le_div_iff_mul_le (by omega)] at up
  · have large : 1 / 2 ≤ (rest : ℚ) / den := by
      rw [div_le_div_iff₀ two_pos divisor]
      exact_mod_cast (show 1 * den ≤ rest * 2 by omega)
    have below : (rest : ℚ) / den < 1 := by
      rw [div_lt_one divisor]
      exact_mod_cast small
    constructor
    · rw [Int.cast_natCast, Nat.cast_succ, abs_le]
      constructor <;> linarith
    · intro _
      rw [abs_of_nonneg (by positivity), abs_of_nonneg (by positivity)]
      push_cast
      linarith
  · have short : (rest : ℚ) / den < 1 / 2 := by
      rw [div_lt_div_iff₀ divisor two_pos]
      exact_mod_cast (show rest * 2 < 1 * den by omega)
    have off : |(digits : ℚ) + rest / den - ((digits : ℕ) : ℤ)| = rest / den := by
      rw [Int.cast_natCast, add_sub_cancel_left, abs_of_nonneg part]
    constructor
    · rw [off]
      exact short.le
    · intro half
      exact absurd (off.symm.trans half) short.ne

/-- A quotient of positive numbers is rounded to a scale at which it is exact or has
`quotientDigits` digits. -/
theorem quotient_spec (some_ : 0 < num) (positive : 0 < den) (scale : ℤ) :
    ∃ zeros : ℕ, (quotient num den scale).2 = scale + zeros ∧
      HalfUp ((num * 10 ^ zeros : ℕ) / den) (quotient num den scale).1 ∧
      (num * 10 ^ zeros = (quotient num den scale).1 * den ∨
        10 ^ (quotientDigits - 1) * den ≤ num * 10 ^ zeros) := by
  obtain ⟨raised, eq_raised, enough⟩ := raise_spec some_ den scale
  have first_pos : 0 < num * 10 ^ raised / den := Nat.div_pos enough positive
  have start : Quotient.Tracks ⟨num * 10 ^ raised / den, num * 10 ^ raised % den, scale + raised⟩
      num den scale :=
    ⟨raised, rfl, (Nat.div_add_mod' _ _).symm, Nat.mod_lt _ positive⟩
  unfold quotient
  rw [eq_raised]
  dsimp only
  generalize num * 10 ^ raised / den = first at start first_pos ⊢
  generalize num * 10 ^ raised % den = rest at start ⊢
  -- Unless nothing is left before, the quotient gets all of its digits.
  have long := Quotient.extend_long den (quotientDigits - digitCount first)
    ⟨first, rest, scale + raised⟩
  obtain ⟨zeros, counted, worked, small⟩ := start.extend (quotientDigits - digitCount first)
  generalize Quotient.extend den (quotientDigits - digitCount first) ⟨first, rest, scale + raised⟩
    = q at counted worked small long ⊢
  refine ⟨zeros, counted, ?_, ?_⟩
  · rw [worked]
    exact halfUp_div small
  · rcases long with ended | long
    · exact .inl (by simp [worked, ended])
    · refine .inr ?_
      calc 10 ^ (quotientDigits - 1) * den
          ≤ 10 ^ (digitCount first - 1 + (quotientDigits - digitCount first)) * den := by
            gcongr
            · decide
            · omega
        _ ≤ first * 10 ^ (quotientDigits - digitCount first) * den := by
            rw [pow_add]
            gcongr
            exact pow_le_of_pos first_pos
        _ ≤ q.digits * den := by gcongr
        _ ≤ num * 10 ^ zeros := by omega

end Quotients

section Values

variable {a b q : Decimal} {x : ℚ}

/-- `q` is `x` rounded with a half going up, at a scale at which `x` is exact or has
`quotientDigits` digits. -/
structure Worked (x : ℚ) (q : Decimal) : Prop where
  rounded : HalfUp (x * 10 ^ q.scale) q.digits
  long : q.value = x ∨ 10 ^ (quotientDigits - 1) ≤ |x * 10 ^ q.scale|

theorem Worked.of_eq (exact_ : q.value = x) : Worked x q := by
  constructor
  · rw [← exact_, value_mul_pow_self]
    exact rounded_intCast _ _
  · exact .inl exact_

theorem div_mul_pow (a b : Decimal) (scale : ℤ) : a.value / b.value * 10 ^ scale =
    a.digits / b.digits * 10 ^ (scale - (a.scale - b.scale)) := by
  unfold value
  rw [mul_div_mul_comm, mul_assoc, ← zpow_sub₀ (by norm_num), ← zpow_add₀ (by norm_num)]
  congr 2
  ring

theorem abs_sign {m : ℤ} (other : m ≠ 0) : |(m.sign : ℚ)| = 1 := by
  exact_mod_cast Int.abs_sign_of_ne_zero other

theorem div_eq_sign_mul (m : ℤ) {n : ℤ} (other : n ≠ 0) :
    (m / n : ℚ) = m.sign * (n.sign * (m.natAbs / n.natAbs)) := by
  have unit : (n.sign : ℚ) * n.sign = 1 := by rw [← abs_mul_abs_self, abs_sign other, one_mul]
  have flip : (m.sign / n.sign : ℚ) = m.sign * n.sign := by
    rw [div_eq_iff (left_ne_zero_of_mul_eq_one unit), mul_assoc, unit, mul_one]
  conv_lhs => rw [← Int.sign_mul_natAbs m, ← Int.sign_mul_natAbs n]
  rw [Int.cast_mul, Int.cast_mul, Int.cast_natCast, Int.cast_natCast, mul_div_mul_comm, flip,
    mul_assoc]

theorem Worked.sign_mul {m : ℤ} (other : m ≠ 0) (worked : Worked x q) :
    Worked (m.sign * x) ⟨m.sign * q.digits, q.scale⟩ := by
  constructor
  · rw [mul_assoc]
    exact worked.rounded.sign_mul m
  · refine worked.long.imp (fun exact_ => ?_) (fun long => ?_)
    · rw [← exact_, value, value, Int.cast_mul, mul_assoc]
    · rwa [mul_assoc, abs_mul, abs_sign other, one_mul]

theorem worked_quotient {num den : ℕ} (some_ : 0 < num) (positive : 0 < den) (scale : ℤ) :
    Worked (num / den * 10 ^ (-scale))
      ⟨(quotient num den scale).1, (quotient num den scale).2⟩ := by
  obtain ⟨zeros, counted, rounded, long⟩ := quotient_spec some_ positive scale
  have divisor : (den : ℚ) ≠ 0 := Nat.cast_ne_zero.mpr positive.ne'
  have power : (10 : ℚ) ^ (scale + zeros) ≠ 0 := by positivity
  have moved : (num / den * 10 ^ (-scale) * 10 ^ (scale + zeros) : ℚ) =
      (num * 10 ^ zeros : ℕ) / den := by
    rw [mul_assoc, ← zpow_add₀ (by norm_num), neg_add_cancel_left, zpow_natCast]
    push_cast
    ring
  rw [counted]
  constructor
  · rw [moved]
    exact rounded
  · refine long.imp (fun ended => ?_) (fun long => ?_)
    · apply mul_right_cancel₀ power
      rw [moved, ended, Nat.cast_mul, mul_div_cancel_right₀ _ divisor]
      exact value_mul_pow_self ⟨(quotient num den scale).1, scale + zeros⟩
    · rw [moved, abs_of_nonneg (by positivity), le_div_iff₀ (by positivity)]
      exact_mod_cast long

theorem value_of_isUnit (unit : b.isUnit) : b.value = 1 := by
  simp only [isUnit, Bool.and_eq_true, decide_eq_true_eq, beq_iff_eq] at unit
  obtain ⟨⟨nonneg, _⟩, power⟩ := unit
  obtain ⟨places, same⟩ := Int.eq_ofNat_of_zero_le nonneg
  unfold value
  rw [power, same, zpow_neg, zpow_natCast, Int.toNat_natCast,
    show Int.pow 10 places = 10 ^ places from rfl, Int.cast_pow]
  exact mul_inv_cancel₀ (by norm_num)

/-- The first of the two roundings. -/
theorem divide_spec (a : Decimal) (other : b.digits ≠ 0) :
    Worked (a.value / b.value) (a.divide b) := by
  have divisor : (b.digits : ℚ) ≠ 0 := Int.cast_ne_zero.mpr other
  unfold divide
  split_ifs with plain equal
  · apply Worked.of_eq
    rcases Bool.or_eq_true_iff.mp plain with zero | unit
    · simp_all [isZero, value]
    · rw [value_of_isUnit unit, div_one]
  · apply Worked.of_eq
    have ratio := div_mul_pow a b 0
    rw [equal, div_self divisor, zero_sub, zpow_zero, mul_one] at ratio
    rw [ratio, value, Int.cast_one]
  · have some_ : 0 < a.digits.natAbs := by simp_all [isZero, Int.natAbs_pos]
    have positive : 0 < b.digits.natAbs := Int.natAbs_pos.mpr other
    have ratio := div_mul_pow a b 0
    rw [zpow_zero, mul_one, zero_sub, div_eq_sign_mul _ other, mul_assoc, mul_assoc] at ratio
    show Worked _ ⟨a.digits.sign * b.digits.sign * _, _⟩
    rw [ratio, mul_assoc a.digits.sign]
    exact ((worked_quotient some_ positive _).sign_mul other).sign_mul (m := a.digits) (by omega)

end Values

section Twice

variable {q : Decimal} {x : ℚ} {scale n : ℤ}

/-- What goes wrong when `x` is rounded to `scale` by way of `q`. -/
inductive Misleads (x : ℚ) (q : Decimal) (scale : ℤ) : Prop
  /-- The digits end at the last place or before, and `x` is more than half of that place away. -/
  | far : q.scale ≤ scale → 1 / 2 < |x * 10 ^ scale - q.value * 10 ^ scale| → Misleads x q scale
  /-- The digits end at the last place, to which a half was rounded up. -/
  | odd : q.scale = scale → |x * 10 ^ scale - q.digits| = 1 / 2 → Odd q.digits → Misleads x q scale
  /-- The digits end in a half, which goes to its even neighbour, but `x` lies on the other side. -/
  | half (n : ℤ) : Even n → |q.value * 10 ^ scale - n| = 1 / 2 → 1 / 2 < |x * 10 ^ scale - n| →
      Misleads x q scale

theorem halfEven_digitsAt (le : q.scale ≤ scale) :
    HalfEven (q.value * 10 ^ scale) (q.digitsAt scale) := by
  rw [value_mul_pow_of_le le]
  exact rounded_intCast _ _

theorem digitsAt_self (q : Decimal) : q.digitsAt q.scale = q.digits := by
  rw [digitsAt_eq, sub_self]
  exact mul_one _

theorem even_digitsAt (lt : q.scale < scale) : Even (q.digitsAt scale) := by
  obtain ⟨rest, places⟩ : ∃ rest, (scale - q.scale).toNat = rest + 1 :=
    ⟨(scale - q.scale).toNat - 1, by omega⟩
  rw [digitsAt_eq, places, show Int.pow 10 (rest + 1) = 10 ^ rest * 10 from rfl]
  exact ((by decide : Even (10 : ℤ)).mul_left _).mul_left _

theorem digits_eq_mul_pow (q : Decimal) (scale : ℤ) :
    (q.digits : ℚ) = q.value * 10 ^ scale * 10 ^ (q.scale - scale) := by
  rw [← mul_pow_eq, value_mul_pow_self]

theorem gap_le (rounded : HalfUp (x * 10 ^ q.scale) q.digits) (scale : ℤ) :
    |x * 10 ^ scale - q.value * 10 ^ scale| * 10 ^ (q.scale - scale) ≤ 1 / 2 := by
  have unit : (0 : ℚ) < 10 ^ (q.scale - scale) := by positivity
  have near := rounded.near
  rwa [mul_pow_eq x scale, digits_eq_mul_pow q scale, ← sub_mul, abs_mul, abs_of_pos unit] at near

/-- With digits behind the last place, `q` is in the middle between two neighbours or on the same
side of it as `x`. -/
theorem near_of_near (rounded : HalfUp (x * 10 ^ q.scale) q.digits) (finer : scale < q.scale)
    (near : |q.value * 10 ^ scale - n| < 1 / 2) : |x * 10 ^ scale - n| < 1 / 2 := by
  obtain ⟨rest, more⟩ : ∃ rest : ℕ, q.scale - scale = (rest + 1 : ℕ) :=
    ⟨(q.scale - scale - 1).toNat, by omega⟩
  have unit : (0 : ℚ) < 10 ^ (rest + 1) := by positivity
  have gap := gap_le rounded scale
  have digits := digits_eq_mul_pow q scale
  rw [more, zpow_natCast] at gap digits
  have part : ((|q.digits - n * 10 ^ (rest + 1)| : ℤ) : ℚ) =
      |q.value * 10 ^ scale - n| * 10 ^ (rest + 1) := by
    push_cast
    rw [digits, ← sub_mul, abs_mul, abs_of_pos unit]
  have below : 2 * |q.digits - n * 10 ^ (rest + 1)| < 10 ^ (rest + 1) := by
    rw [← Int.cast_lt (R := ℚ), Int.cast_mul, part]
    push_cast
    linarith [mul_lt_mul_of_pos_right near unit]
  -- Both sides are even, which leaves room for the first rounding.
  have room : 2 * |q.digits - n * 10 ^ (rest + 1)| + 2 ≤ 10 ^ (rest + 1) := by
    rw [pow_succ] at below ⊢
    omega
  rw [← Int.cast_le (R := ℚ), Int.cast_add, Int.cast_mul, part] at room
  push_cast at room
  have total := abs_sub_le (x * 10 ^ scale) (q.value * 10 ^ scale) n
  have total : |x * 10 ^ scale - n| * 10 ^ (rest + 1) < 1 / 2 * 10 ^ (rest + 1) := by
    linarith [mul_le_mul_of_nonneg_right total unit.le]
  exact lt_of_mul_lt_mul_right total unit.le

theorem halfEven_iff_not_misleads (rounded : HalfUp (x * 10 ^ q.scale) q.digits)
    (again : HalfEven (q.value * 10 ^ scale) n) :
    HalfEven (x * 10 ^ scale) n ↔ ¬ Misleads x q scale := by
  constructor
  · rintro direct (⟨coarse, off⟩ | ⟨rfl, half, odd⟩ | ⟨m, even, half, off⟩)
    · have same := again.unique (halfEven_digitsAt coarse)
      rw [value_mul_pow_of_le coarse, ← same] at off
      exact absurd direct.near (not_le.mpr off)
    · have same := again.unique (halfEven_digitsAt le_rfl)
      rw [digitsAt_self] at same
      subst same
      exact Int.not_even_iff_odd.mpr odd (direct.tie half)
    · have same : n = m := again.unique ⟨half.le, fun _ => even⟩
      subst same
      exact absurd direct.near (not_le.mpr off)
  · intro right
    rcases le_or_gt q.scale scale with coarse | finer
    · obtain rfl := again.unique (halfEven_digitsAt coarse)
      constructor
      · rw [← value_mul_pow_of_le coarse]
        exact not_lt.mp fun off => right (.far coarse off)
      · intro half
        rcases coarse.lt_or_eq with coarse | rfl
        · exact even_digitsAt coarse
        · rw [digitsAt_self] at half ⊢
          exact Int.not_odd_iff_even.mp fun odd => right (.odd rfl half odd)
    · rcases again.near.lt_or_eq with near | half
      · have near := near_of_near rounded finer near
        exact ⟨near.le, fun half => absurd half near.ne⟩
      · have even := again.tie half
        exact ⟨not_lt.mp fun off => right (.half n even half off), fun _ => even⟩

section Small

variable {num den : ℤ}

theorem den_lt_pow (fraction : x * 10 ^ scale = num / den) (other : den ≠ 0)
    (small : |num| < 10 ^ (quotientDigits - 1))
    (long : 10 ^ (quotientDigits - 1) ≤ |x * 10 ^ q.scale|) :
    |(den : ℚ)| < 10 ^ (q.scale - scale) := by
  have unit : (0 : ℚ) < 10 ^ (q.scale - scale) := by positivity
  have divisor : (0 : ℚ) < |(den : ℚ)| := abs_pos.mpr (Int.cast_ne_zero.mpr other)
  rw [mul_pow_eq x scale, fraction, abs_mul, abs_div, abs_of_pos unit, div_mul_eq_mul_div,
    le_div_iff₀ divisor] at long
  have short : |(num : ℚ)| < 10 ^ (quotientDigits - 1) := by exact_mod_cast small
  have power : (0 : ℚ) < 10 ^ (quotientDigits - 1) := by positivity
  exact lt_of_mul_lt_mul_left (long.trans_lt (mul_lt_mul_of_pos_right short unit)) power.le

/-- What the first rounding may lose is less than a half can be missed by. -/
theorem not_misleads_of_small (worked : Worked x q) (fraction : x * 10 ^ scale = num / den)
    (other : den ≠ 0) (small : |num| < 10 ^ (quotientDigits - 1)) : ¬ Misleads x q scale := by
  have gap := gap_le worked.rounded scale
  rcases worked.long with rfl | long
  · rintro (⟨_, off⟩ | ⟨rfl, half, _⟩ | ⟨n, _, half, off⟩)
    · norm_num at off
    · rw [value_mul_pow_self] at half
      norm_num at half
    · exact absurd half off.ne'
  · have divisor : (1 : ℚ) ≤ |(den : ℚ)| := by exact_mod_cast Int.one_le_abs other
    have fine : |(den : ℚ)| < 10 ^ (q.scale - scale) := den_lt_pow fraction other small long
    have finer : 0 < q.scale - scale :=
      (one_lt_zpow_iff_right₀ (by norm_num)).mp (divisor.trans_lt fine)
    rintro (⟨coarse, _⟩ | ⟨same, _, _⟩ | ⟨n, _, half, off⟩)
    · omega
    · omega
    · have above := add_one_le_of_half_lt other (fraction ▸ off)
      have slight : |x * 10 ^ scale - q.value * 10 ^ scale| * |(den : ℚ)| < 1 / 2 := by
        rcases (abs_nonneg (x * 10 ^ scale - q.value * 10 ^ scale)).eq_or_lt with zero | some_
        · rw [← zero, zero_mul]
          exact one_half_pos
        · exact (mul_lt_mul_of_pos_left fine some_).trans_le gap
      have total := abs_sub_le (x * 10 ^ scale) (q.value * 10 ^ scale) n
      rw [half, fraction] at total
      rw [fraction] at slight
      linarith [mul_le_mul_of_nonneg_right total (abs_nonneg (den : ℚ))]

end Small

end Twice

theorem div_mul_pow_scale (a b : Decimal) : a.value / b.value * 10 ^ a.scale =
    (a.digits * 10 ^ b.scale.toNat : ℤ) / (b.digits * 10 ^ (-b.scale).toNat : ℤ) := by
  rw [div_mul_pow, sub_sub_cancel]
  rcases le_total 0 b.scale with fraction | whole
  · obtain ⟨places, same⟩ := Int.eq_ofNat_of_zero_le fraction
    rw [same, zpow_natCast, Int.toNat_natCast, Int.toNat_neg_natCast]
    push_cast
    ring
  · obtain ⟨places, same⟩ := Int.eq_ofNat_of_zero_le (neg_nonneg.mpr whole)
    rw [neg_eq_iff_eq_neg.mp same, zpow_neg, zpow_natCast, neg_neg, Int.toNat_natCast,
      Int.toNat_neg_natCast]
    push_cast
    ring

/-- Division succeeds for every divisor other than zero, and the result has the scale of the
dividend. It is the quotient rounded to that scale unless the first hundred digits mislead. They
do not if the dividend has less than a hundred digits, with the places of the divisor counted in. -/
theorem division_rounds_iff (heap : Heap) (a b : Decimal) (other : b.digits ≠ 0) :
    ∃ d : Decimal, Operator.divide.apply heap (.decimal a) (.decimal b) = .ok (.decimal d) ∧
      d.scale = a.scale ∧
      (Worked (a.value / b.value) (a.divide b) ∧
        HalfEven ((a.divide b).value * 10 ^ a.scale) d.digits) ∧
      (HalfEven (a.value / b.value * 10 ^ a.scale) d.digits ↔
        ¬ Misleads (a.value / b.value) (a.divide b) a.scale) ∧
      (|a.digits| * 10 ^ b.scale.toNat < 10 ^ (quotientDigits - 1) →
        HalfEven (a.value / b.value * 10 ^ a.scale) d.digits) := by
  have worked := divide_spec a other
  have again := halfEven_rescale (a.divide b) a.scale
  have right := halfEven_iff_not_misleads worked.rounded again
  refine ⟨a.div b, ?_, rescale_scale _ _, ⟨worked, again⟩, right, fun small => ?_⟩
  · have nonzero : b.isZero = false := by simpa [isZero] using other
    simp [Operator.apply, Operator.arithmetic, Operator.onDecimals, nonzero]
  · refine right.mpr (not_misleads_of_small worked (div_mul_pow_scale a b) ?_ ?_)
    · exact mul_ne_zero other (by positivity)
    · rwa [abs_mul, abs_of_nonneg (by positivity : (0 : ℤ) ≤ 10 ^ b.scale.toNat)]

theorem division_rounds_iff_tie : (20 : ℤ) ≠ 0 ∧
    Operator.divide.apply ⟨#[]⟩ (.decimal ⟨-45, 1⟩) (.decimal ⟨20, 1⟩) =
      .ok (.decimal ⟨-22, 1⟩) ∧
    HalfEven (value ⟨-45, 1⟩ / value ⟨20, 1⟩ * 10 ^ (1 : ℤ)) (-22) := by
  have quarter : div ⟨-45, 1⟩ ⟨20, 1⟩ = ⟨-22, 1⟩ := by decide +kernel
  have ran : Operator.divide.apply ⟨#[]⟩ (.decimal ⟨-45, 1⟩) (.decimal ⟨20, 1⟩) =
      .ok (.decimal ⟨-22, 1⟩) := congrArg (Except.ok ∘ Value.decimal) quarter
  obtain ⟨d, applied, _, _, _, small⟩ := division_rounds_iff ⟨#[]⟩ ⟨-45, 1⟩ ⟨20, 1⟩ (by decide)
  cases applied.symm.trans ran
  exact ⟨by decide, ran, small (by decide)⟩

/-- The quotient has a hundred digits before the point. A half behind them is rounded up, so that
the place after the point, which the dividend has, is lost. -/
theorem exists_misrounded : ∃ a b d : Decimal, b.digits ≠ 0 ∧
    Operator.divide.apply ⟨#[]⟩ (.decimal a) (.decimal b) = .ok (.decimal d) ∧
    ¬ HalfEven (a.value / b.value * 10 ^ a.scale) d.digits := by
  refine ⟨⟨10 ^ 101 + 10, 1⟩, ⟨20, 1⟩, ⟨(5 * 10 ^ 99 + 1) * 10, 1⟩, by decide, ?_, ?_⟩
  · have halved : div ⟨10 ^ 101 + 10, 1⟩ ⟨20, 1⟩ = ⟨(5 * 10 ^ 99 + 1) * 10, 1⟩ := by
      decide +kernel
    exact congrArg (Except.ok ∘ Value.decimal) halved
  · intro rounded
    have exact_ : value ⟨10 ^ 101 + 10, 1⟩ / value ⟨20, 1⟩ * 10 ^ (1 : ℤ) =
        ((5 * 10 ^ 100 + 5 : ℤ) : ℚ) := by
      norm_num [value]
    have whole : HalfEven (value ⟨10 ^ 101 + 10, 1⟩ / value ⟨20, 1⟩ * 10 ^ (1 : ℤ))
        (5 * 10 ^ 100 + 5) := by
      rw [exact_]
      exact rounded_intCast _ _
    exact absurd (rounded.unique whole) (by decide)

end Plc.Decimal
