import Plc.Value

/-! What the operators do to values. -/
namespace Plc

def Value.compare : Value → Value → Except Fault Ordering
  | .integer a, .integer b => .ok (Ord.compare a b)
  | .decimal a, .decimal b => .ok (a.compare b)
  | .character a, .character b => .ok (Ord.compare a.toNat b.toNat)
  | .string a, .string b => .ok (compareOfLessAndEq a b)
  | a, b => .error (.typeMismatch a.shape b.shape)

namespace Operator

/-- The left operand that settles a logical operation, so that the right one is not looked at. -/
def decisive? : Operator → Option Bool
  | and => some false
  | or => some true
  | _ => none

def exponentLimit : Int := Int.pow 2 32

/-- Arithmetic on integers. Quotients are rounded toward zero. -/
def onIntegers (op : Operator) (a b : Int) : Except Fault Value :=
  match op with
  | add => .ok (.integer (a + b))
  | subtract => .ok (.integer (a - b))
  | multiply => .ok (.integer (a * b))
  | divide => if b = 0 then .error .divisionByZero else .ok (.integer (a.tdiv b))
  | power =>
    if 0 ≤ b ∧ b < exponentLimit then .ok (.integer (Int.pow a b.toNat))
    else .error (.exponentRange b)
  | _ => .error (.operands op (.plain .integer) (.plain .integer))

def onDecimals (op : Operator) (a b : Decimal) : Except Fault Value :=
  match op with
  | add => .ok (.decimal (a.add b))
  | subtract => .ok (.decimal (a.sub b))
  | multiply => .ok (.decimal (a.mul b))
  | divide => if b.isZero then .error .divisionByZero else .ok (.decimal (a.div b))
  | _ => .error (.operands op (.plain .decimal) (.plain .decimal))

def arithmetic (op : Operator) : Value → Value → Except Fault Value
  | .integer a, .integer b => op.onIntegers a b
  | .decimal a, .decimal b => op.onDecimals a b
  | a, b => .error (.operands op a.shape b.shape)

/-- The result of an operation on two values. A sum with a string on either side joins the texts
of both. -/
def apply (op : Operator) (heap : Heap) (a b : Value) : Except Fault Value :=
  match op with
  | and => do return .boolean ((← a.truth) && (← b.truth))
  | or => do return .boolean ((← a.truth) || (← b.truth))
  | less => do return .boolean ((← a.compare b) == .lt)
  | greater => do return .boolean ((← a.compare b) == .gt)
  | equal => .ok (.boolean (heap.equal a b))
  | notEqual => .ok (.boolean (!heap.equal a b))
  | add =>
    if a.isString || b.isString then .ok (.string (heap.text a ++ heap.text b))
    else arithmetic add a b
  | op => op.arithmetic a b

end Operator
end Plc
