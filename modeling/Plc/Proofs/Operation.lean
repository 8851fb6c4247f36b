import Plc.Proofs.Outcome
import Plc.Value.Operation

/-! The faults that operations on values may end in, whatever the values are. -/
namespace Plc

def Fault.isOfValues : Fault → Bool
  | typeMismatch .. | operands .. | divisionByZero | exponentRange _ | indexOutOfBounds .. => true
  | _ => false

namespace Value

theorem truth_ofValues (v : Value) : Ends (·.isOfValues = true) (fun _ => True) v.truth := by
  cases v with
  | boolean => trivial
  | _ => rfl

theorem index_ofValues (v : Value) (length : Nat) :
    Ends (·.isOfValues = true) (fun _ => True) (v.index length) := by
  cases v with
  | integer n =>
    rw [Value.index]
    split
    · trivial
    · rfl
  | _ => rfl

theorem compare_ofValues (x y : Value) :
    Ends (·.isOfValues = true) (fun _ => True) (x.compare y) := by
  rw [Value.compare.eq_def]
  split
  · trivial
  · trivial
  · trivial
  · trivial
  · rfl

end Value

namespace Operator

theorem arithmetic_ofValues (op : Operator) (x y : Value) :
    Ends (·.isOfValues = true) (fun _ => True) (op.arithmetic x y) := by
  rw [Operator.arithmetic.eq_def]
  split
  · rename_i a b
    cases op with
    | divide =>
      rw [Operator.onIntegers]
      split
      · rfl
      · trivial
    | power =>
      rw [Operator.onIntegers]
      split
      · trivial
      · rfl
    | add | subtract | multiply => trivial
    | _ => rfl
  · rename_i a b
    cases op with
    | divide =>
      rw [Operator.onDecimals]
      split
      · rfl
      · trivial
    | add | subtract | multiply => trivial
    | _ => rfl
  · rfl

theorem apply_ofValues (op : Operator) (heap : Heap) (x y : Value) :
    Ends (·.isOfValues = true) (fun _ => True) (op.apply heap x y) := by
  cases op with
  | and =>
    exact ends_bind x.truth_ofValues fun _ _ => ends_bind y.truth_ofValues fun _ _ => trivial
  | or =>
    exact ends_bind x.truth_ofValues fun _ _ => ends_bind y.truth_ofValues fun _ _ => trivial
  | less => exact ends_bind (x.compare_ofValues y) fun _ _ => trivial
  | greater => exact ends_bind (x.compare_ofValues y) fun _ _ => trivial
  | equal => trivial
  | notEqual => trivial
  | add =>
    rw [Operator.apply]
    split
    · trivial
    · exact arithmetic_ofValues _ x y
  | subtract => exact arithmetic_ofValues _ x y
  | multiply => exact arithmetic_ofValues _ x y
  | divide => exact arithmetic_ofValues _ x y
  | power => exact arithmetic_ofValues _ x y

end Operator
end Plc
