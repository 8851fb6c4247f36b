import Plc.Proofs.Outcome
import Plc.Typing
import Plc.Value.Operation

/-! The operands that the analysis lets an operator have. -/
namespace Plc

namespace Ty

theorem resolve_eq_ok {name : String} {ty : Ty} :
    resolve name = .ok ty ↔ ofName? name = some ty := by
  rw [resolve]
  split
  · simp_all
  · simp_all

theorem requireAccepts_eq_ok {target source : Ty} {u : Unit} :
    target.requireAccepts source = .ok u ↔ target.accepts source = true := by
  rw [requireAccepts]
  split
  · simp_all
  · simp_all

theorem requireSame_eq_ok {expected received : Ty} {u : Unit} :
    expected.requireSame received = .ok u ↔ expected = received := by
  rw [requireSame]
  split
  · simp_all
  · simp_all

theorem eq_of_boolean_accepts {source : Ty} (accepted : boolean.accepts source = true) :
    source = boolean := by
  cases source <;> first | rfl | cases accepted

theorem eq_of_integer_accepts {source : Ty} (accepted : integer.accepts source = true) :
    source = integer := by
  cases source <;> first | rfl | cases accepted

def isPlain : Ty → Bool
  | .any | .comparable => false
  | _ => true

end Ty

namespace Operator

def isArithmetic : Operator → Bool
  | add | subtract | multiply | divide => true
  | _ => false

inductive Takes : Operator → Ty → Ty → Ty → Prop
  | and : Takes .and .boolean .boolean .boolean
  | or : Takes .or .boolean .boolean .boolean
  | less {a} : Ty.comparable.accepts a = true → Takes .less a a .boolean
  | greater {a} : Ty.comparable.accepts a = true → Takes .greater a a .boolean
  | equal {a} : Takes .equal a a .boolean
  | notEqual {a} : Takes .notEqual a a .boolean
  | join {a b} : a = .string ∨ b = .string → Takes .add a b .string
  | arithmetic {op a} : op.isArithmetic = true → a = .integer ∨ a = .decimal → Takes op a a a
  | power : Takes .power .integer .integer .integer

theorem arithmeticType_eq_ok {op : Operator} {a b t : Ty} :
    op.arithmeticType a b = .ok t ↔ (a = .integer ∨ a = .decimal) ∧ b = a ∧ t = a := by
  rw [arithmeticType]
  constructor
  · intro typed
    split at typed
    · rename_i numeric
      simp only [bind_eq_ok, pure_eq_ok, Ty.requireSame_eq_ok] at typed
      obtain ⟨_, rfl, rfl⟩ := typed
      exact ⟨numeric, rfl, rfl⟩
    · cases typed
  · rintro ⟨numeric, rfl, rfl⟩
    rw [if_pos numeric]
    simp only [bind_eq_ok, pure_eq_ok, Ty.requireSame_eq_ok]
    exact ⟨(), trivial, trivial⟩

/-- The analysis lets an operator have the operands that it takes, and no others. -/
theorem type_eq_ok {op : Operator} {a b t : Ty} : op.type a b = .ok t ↔ op.Takes a b t := by
  constructor
  · intro typed
    -- Four operators have the rule for numbers in common.
    have numbers (arithmetic : op.isArithmetic = true) (typed : op.arithmeticType a b = .ok t) :
        op.Takes a b t := by
      obtain ⟨numeric, rfl, rfl⟩ := arithmeticType_eq_ok.mp typed
      exact .arithmetic arithmetic numeric
    cases op with
    | and =>
      simp only [type, bind_eq_ok, pure_eq_ok, Ty.requireAccepts_eq_ok] at typed
      obtain ⟨_, first, _, second, rfl⟩ := typed
      obtain rfl := Ty.eq_of_boolean_accepts first
      obtain rfl := Ty.eq_of_boolean_accepts second
      exact .and
    | or =>
      simp only [type, bind_eq_ok, pure_eq_ok, Ty.requireAccepts_eq_ok] at typed
      obtain ⟨_, first, _, second, rfl⟩ := typed
      obtain rfl := Ty.eq_of_boolean_accepts first
      obtain rfl := Ty.eq_of_boolean_accepts second
      exact .or
    | less =>
      simp only [type, bind_eq_ok, pure_eq_ok, Ty.requireAccepts_eq_ok, Ty.requireSame_eq_ok]
        at typed
      obtain ⟨_, comparable, _, rfl, rfl⟩ := typed
      exact .less comparable
    | greater =>
      simp only [type, bind_eq_ok, pure_eq_ok, Ty.requireAccepts_eq_ok, Ty.requireSame_eq_ok]
        at typed
      obtain ⟨_, comparable, _, rfl, rfl⟩ := typed
      exact .greater comparable
    | equal =>
      simp only [type, bind_eq_ok, pure_eq_ok, Ty.requireSame_eq_ok] at typed
      obtain ⟨_, rfl, rfl⟩ := typed
      exact .equal
    | notEqual =>
      simp only [type, bind_eq_ok, pure_eq_ok, Ty.requireSame_eq_ok] at typed
      obtain ⟨_, rfl, rfl⟩ := typed
      exact .notEqual
    | add =>
      rw [type] at typed
      split at typed
      · rename_i joined
        obtain rfl := Except.ok.inj typed
        exact .join joined
      · exact numbers rfl typed
    | subtract => exact numbers rfl typed
    | multiply => exact numbers rfl typed
    | divide => exact numbers rfl typed
    | power =>
      simp only [type, bind_eq_ok, pure_eq_ok, Ty.requireAccepts_eq_ok] at typed
      obtain ⟨_, first, _, second, rfl⟩ := typed
      obtain rfl := Ty.eq_of_integer_accepts first
      obtain rfl := Ty.eq_of_integer_accepts second
      exact .power
  · intro takes
    cases takes with
    | and => rfl
    | or => rfl
    | less comparable =>
      simp only [type, bind_eq_ok, pure_eq_ok, Ty.requireAccepts_eq_ok, Ty.requireSame_eq_ok]
      exact ⟨(), comparable, (), trivial, trivial⟩
    | greater comparable =>
      simp only [type, bind_eq_ok, pure_eq_ok, Ty.requireAccepts_eq_ok, Ty.requireSame_eq_ok]
      exact ⟨(), comparable, (), trivial, trivial⟩
    | equal =>
      simp only [type, bind_eq_ok, pure_eq_ok, Ty.requireSame_eq_ok]
      exact ⟨(), trivial, trivial⟩
    | notEqual =>
      simp only [type, bind_eq_ok, pure_eq_ok, Ty.requireSame_eq_ok]
      exact ⟨(), trivial, trivial⟩
    | join joined => rw [type, if_pos joined]
    | arithmetic arithmetic numeric =>
      have typed : op.arithmeticType a a = .ok a :=
        arithmeticType_eq_ok.mpr ⟨numeric, rfl, rfl⟩
      cases op with
      | add =>
        have noString : ¬ (a = .string ∨ a = .string) := by
          rcases numeric with rfl | rfl <;> decide
        rw [type, if_neg noString]
        exact typed
      | subtract => exact typed
      | multiply => exact typed
      | divide => exact typed
      | _ => cases arithmetic
    | power => rfl

variable {op : Operator} {a b t : Ty}

/-- An operator that may be settled by its left operand takes and gives truth values. -/
theorem Takes.boolean_of_decisive (takes : op.Takes a b t) {decisive : Bool}
    (settles : op.decisive? = some decisive) : a = .boolean ∧ t = .boolean := by
  cases takes with
  | and => exact ⟨rfl, rfl⟩
  | or => exact ⟨rfl, rfl⟩
  | arithmetic arithmetic => cases op <;> first | (cases settles; done) | cases arithmetic
  | _ => cases settles

theorem Takes.isPlain (takes : op.Takes a b t) : t.isPlain = true := by
  cases takes with
  | arithmetic _ numeric => rcases numeric with rfl | rfl <;> rfl
  | _ => rfl

end Operator
end Plc
