import Plc.Decimal

/-! Division of decimals. A quotient is worked out to a hundred digits and then rounded to the
scale of the dividend, a half going to the even neighbour. -/
namespace Plc.Decimal

def roundHalfEven (num den : Nat) : Nat :=
  let quotient := num / den
  let twice := 2 * (num % den)
  if twice < den then quotient
  else if den < twice then quotient + 1
  else quotient + quotient % 2

/-- A number with its last `count` digits rounded away. With more digits to go than it has, it is
less than a tenth, and nothing is left. -/
def dropDigits (n count : Nat) : Nat :=
  if digitCount n < count then 0 else roundHalfEven n (Nat.pow 10 count)

theorem dropDigits_eq (n count : Nat) :
    dropDigits n count = roundHalfEven n (Nat.pow 10 count) := by
  unfold dropDigits
  split
  next few =>
    obtain ⟨rest, rfl⟩ : ∃ rest, count = rest + 1 := ⟨count - 1, by omega⟩
    have some_digit : 0 < digitCount n := Nat.length_toDigits_pos
    have small : n < 10 ^ rest := (lt_pow_iff_digitCount_le (by omega)).2 (by omega)
    have tenth : 10 * n < 10 ^ (rest + 1) := by rw [Nat.pow_succ]; omega
    simp [roundHalfEven, Nat.div_eq_of_lt (show n < 10 ^ (rest + 1) by omega),
      Nat.mod_eq_of_lt (show n < 10 ^ (rest + 1) by omega), show 2 * n < 10 ^ (rest + 1) by omega]
  next => rfl

def rescale (a : Decimal) (scale : Int) : Decimal :=
  if a.scale ≤ scale then ⟨a.digitsAt scale, scale⟩
  else ⟨a.digits.sign * dropDigits a.digits.natAbs (a.scale - scale).toNat, scale⟩

def quotientDigits : Nat := 100

def raise (num den : Nat) (scale : Int) : Nat × Int :=
  if 0 < num ∧ num < den then raise (num * 10) den (scale + 1) else (num, scale)
termination_by den - num

structure Quotient where
  digits : Nat
  remainder : Nat
  scale : Int

def Quotient.extend (den : Nat) : Nat → Quotient → Quotient
  | 0, q => q
  | count + 1, q =>
    if q.remainder = 0 then q
    else
      extend den count
        ⟨q.digits * 10 + q.remainder * 10 / den, q.remainder * 10 % den, q.scale + 1⟩

/-- The quotient of two positive numbers to `quotientDigits` digits, the last one rounded with a
half going up. -/
def quotient (num den : Nat) (scale : Int) : Nat × Int :=
  let (num, scale) := raise num den scale
  let first := num / den
  let q := Quotient.extend den (quotientDigits - digitCount first) ⟨first, num % den, scale⟩
  (if 5 ≤ q.remainder * 10 / den then q.digits + 1 else q.digits, q.scale)

def divide (a b : Decimal) : Decimal :=
  if a.isZero || b.isUnit then a
  else if a.digits = b.digits then ⟨1, a.scale - b.scale⟩
  else
    let (digits, scale) := quotient a.digits.natAbs b.digits.natAbs (a.scale - b.scale)
    ⟨a.digits.sign * b.digits.sign * digits, scale⟩

def div (a b : Decimal) : Decimal := (a.divide b).rescale a.scale

end Plc.Decimal
