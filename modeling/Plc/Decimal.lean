/-! Exact decimal numbers with a scale, and sums and products of them. One number has many scales,
and which one a result gets is part of each rule below. -/
namespace Plc

/-- The number `digits · 10 ^ (-scale)`. -/
structure Decimal where
  digits : Int
  scale : Int
deriving DecidableEq

namespace Decimal

def isZero (a : Decimal) : Bool := a.digits == 0

def digitCount (n : Nat) : Nat := (Nat.toDigits 10 n).length

theorem lt_pow_iff_digitCount_le {n k : Nat} (positive : 0 < k) :
    n < Nat.pow 10 k ↔ digitCount n ≤ k :=
  (Nat.length_toDigits_le_iff (by decide) positive).symm

theorem pow_le_of_pos {n : Nat} (positive : 0 < n) : Nat.pow 10 (digitCount n - 1) ≤ n := by
  cases rest : digitCount n - 1 with
  | zero => exact positive
  | succ k =>
    have longer : ¬ digitCount n ≤ k + 1 := by omega
    exact Nat.le_of_not_lt (mt (lt_pow_iff_digitCount_le (Nat.succ_pos k)).1 longer)

/-- The digits of `a` when it is written at `scale`, which is at least its own. The power is not
worked out for a zero, as it may be far too large to be held. -/
def digitsAt (a : Decimal) (scale : Int) : Int :=
  if a.isZero then 0 else a.digits * Int.pow 10 (scale - a.scale).toNat

theorem digitsAt_eq (a : Decimal) (scale : Int) :
    a.digitsAt scale = a.digits * Int.pow 10 (scale - a.scale).toNat := by
  unfold digitsAt isZero
  split <;> simp_all

def neg (a : Decimal) : Decimal := ⟨-a.digits, a.scale⟩

/-- A sum has the larger scale, also when one of the two is zero. -/
def add (a b : Decimal) : Decimal :=
  let scale := max a.scale b.scale
  ⟨a.digitsAt scale + b.digitsAt scale, scale⟩

/-- Nothing is done for a zero on either side, so only a difference of two other numbers has the
larger scale. -/
def sub (a b : Decimal) : Decimal :=
  if b.isZero then a
  else if a.isZero then b.neg
  else
    let scale := max a.scale b.scale
    ⟨a.digitsAt scale - b.digitsAt scale, scale⟩

/-- The longest fraction with which the number one is known as a factor that changes nothing. -/
def unitScale : Int := 38

def isUnit (a : Decimal) : Bool :=
  decide (0 ≤ a.scale ∧ a.scale ≤ unitScale) && a.digits == Int.pow 10 a.scale.toNat

/-- A scale is kept in 64 bits, and a sum of scales that needs more wraps. -/
def wrapScale (scale : Int) : Int := scale.bmod (Nat.pow 2 64)

/-- Scales add, but a factor of one leaves the other factor as it is. -/
def mul (a b : Decimal) : Decimal :=
  if a.isUnit then b
  else if b.isUnit then a
  else ⟨a.digits * b.digits, wrapScale (a.scale + b.scale)⟩

end Decimal
end Plc
