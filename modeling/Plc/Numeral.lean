/-! Reading integers from text: a sign, then digits among which underscores may stand. -/
namespace Plc.Numeral

def next? (sofar : Nat) (c : Char) : Option Nat :=
  if c.isDigit then some (10 * sofar + (c.toNat - '0'.toNat))
  else if c = '_' then some sofar
  else none

def digits? : List Char → Option Nat
  | [] => none
  | c :: cs => if c = '_' then none else (c :: cs).foldlM next? 0

def integer? : List Char → Option Int
  | '-' :: cs => (digits? cs).map fun n => -(n : Int)
  | '+' :: cs => (digits? cs).map fun n => (n : Int)
  | cs => (digits? cs).map fun n => (n : Int)

/-- A sign may stand in front of the digits of an exponent, and no underscore among them. -/
def exponent? (cs : List Char) : Option Int :=
  if '_' ∈ cs then none else integer? cs

end Plc.Numeral
