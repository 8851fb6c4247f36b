import Plc.Decimal.Division
import Plc.Numeral

/-! The text of decimals: how one is read, how one is shown, and how large one may be to count as
a finite double. -/
namespace Plc.Decimal

def scaleLimit : Int := Int.pow 2 63

/-- Splits at the first character of a class, which belongs to neither part. -/
def splitAt? (stop : Char → Bool) (cs : List Char) : Option (List Char × List Char) :=
  match cs.dropWhile fun c => !stop c with
  | [] => none
  | _ :: after => some (cs.takeWhile fun c => !stop c, after)

/-- Digits with an optional point among them and an optional exponent behind. The scale counts
the digits after the point, underscores aside, less the exponent. -/
def ofText? (cs : List Char) : Option Decimal := do
  let (base, exponent) ←
    match splitAt? (fun c => c == 'e' || c == 'E') cs with
    | none => some (cs, 0)
    | some (base, exponent) => (Numeral.exponent? exponent).map fun e => (base, e)
  let (whole, fraction) := (splitAt? (· == '.') base).getD (base, [])
  let scale := (fraction.countP (· != '_') : Int) - exponent
  let digits ← Numeral.integer? (whole ++ fraction)
  if -scaleLimit ≤ scale ∧ scale < scaleLimit then some ⟨digits, scale⟩ else none

/-- How many more zeros than digits a fraction may begin with before it is shown with an
exponent. -/
def zerosShown : Int := 5

def zerosAppended : Int := 15

def magnitudeText (digits : Nat) (scale : Int) : List Char :=
  let shown := Nat.toDigits 10 digits
  let count : Int := shown.length
  if zerosShown < scale - count then
    let fraction := shown.drop 1
    shown.take 1 ++ (if fraction.isEmpty then [] else '.' :: fraction) ++
      "E-".toList ++ Nat.toDigits 10 (scale + 1 - count).toNat
  else if zerosAppended < -scale then
    shown ++ "e+".toList ++ Nat.toDigits 10 (-scale).toNat
  else if scale ≤ 0 then
    shown ++ List.replicate (-scale).toNat '0'
  else
    let padded := List.replicate (scale.toNat + 1 - shown.length) '0' ++ shown
    let whole := padded.length - scale.toNat
    padded.take whole ++ '.' :: padded.drop whole

def toText (a : Decimal) : String :=
  if a.digits = 0 then "0"
  else
    String.ofList
      ((if a.digits < 0 then ['-'] else []) ++ magnitudeText a.digits.natAbs a.scale)

/-- The smallest number for which the nearest double is infinite. -/
def doubleLimit : Nat := Nat.pow 2 1024 - Nat.pow 2 970

/-- Whether the nearest double is finite. Only a number whose integer part is as long as that of
the limit has to be compared with it. -/
def isFinite (a : Decimal) : Bool :=
  let size := a.digits.natAbs
  let whole := (digitCount size : Int) - a.scale
  let limit : Int := digitCount doubleLimit
  if a.isZero || whole < limit then true
  else if limit < whole then false
  else size * Nat.pow 10 (-a.scale).toNat < doubleLimit * Nat.pow 10 a.scale.toNat

end Plc.Decimal
