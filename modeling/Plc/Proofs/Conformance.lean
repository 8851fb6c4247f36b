import Plc.Proofs.Typing.Operators

/-! Values against types, and what the operators make of values that conform to the types of their
operands. -/
namespace Plc

def Value.conforms : Value → Ty → Bool
  | _, .any => true
  | .nil, .nil => true
  | .boolean _, .boolean => true
  | .integer _, .integer | .integer _, .comparable => true
  | .decimal _, .decimal | .decimal _, .comparable => true
  | .character _, .character | .character _, .comparable => true
  | .string _, .string | .string _, .comparable => true
  | _, _ => false

def Ty.Holds (ty : Ty) (v : Value) : Prop := v = .nil ∨ v.conforms ty = true

instance (ty : Ty) (v : Value) : Decidable (ty.Holds v) :=
  inferInstanceAs (Decidable (_ ∨ _))

namespace Value

variable {v : Value}

theorem conforms_accepts {target source : Ty} (accepted : target.accepts source = true)
    (conforms : v.conforms source = true) : v.conforms target = true := by
  by_cases same : target = source
  · exact same ▸ conforms
  · cases target with
    | any =>
      cases v <;> rfl
    | comparable =>
      cases v with
      | nil => cases source <;> first | (cases accepted; done) | cases conforms
      | boolean => cases source <;> first | (cases accepted; done) | cases conforms
      | list => cases source <;> first | (cases accepted; done) | cases conforms
      | _ => rfl
    | _ => simp [Ty.accepts, same] at accepted

theorem conforms_literal {literal : Literal} {ty : Ty} (typed : literal.type = .ok ty) :
    (ofLiteral literal).conforms ty = true := by
  cases literal with
  | integer i =>
    rw [Literal.type] at typed
    split at typed
    · cases typed
      rfl
    · cases typed
  | decimal x =>
    rw [Literal.type] at typed
    split at typed
    · cases typed
      rfl
    · cases typed
  | _ =>
    cases typed
    rfl

theorem conforms_any (v : Value) : v.conforms .any = true := by
  cases v <;> rfl

theorem conforms_nil {ty : Ty} : Value.nil.conforms ty = true ↔ ty = .nil ∨ ty = .any := by
  cases ty <;> decide

theorem eq_any_of_conforms_list {ty : Ty} {a : Nat} (conforms : (list a).conforms ty = true) :
    ty = .any := by
  cases ty <;> first | rfl | cases conforms

theorem exists_boolean (conforms : v.conforms .boolean = true) : ∃ b, v = boolean b := by
  cases v <;> first | exact ⟨_, rfl⟩ | cases conforms

theorem exists_integer (conforms : v.conforms .integer = true) : ∃ i, v = integer i := by
  cases v <;> first | exact ⟨_, rfl⟩ | cases conforms

theorem exists_decimal (conforms : v.conforms .decimal = true) : ∃ x, v = decimal x := by
  cases v <;> first | exact ⟨_, rfl⟩ | cases conforms

theorem exists_character (conforms : v.conforms .character = true) : ∃ c, v = character c := by
  cases v <;> first | exact ⟨_, rfl⟩ | cases conforms

theorem exists_string (conforms : v.conforms .string = true) : ∃ s, v = string s := by
  cases v <;> first | exact ⟨_, rfl⟩ | cases conforms

end Value

theorem Ty.Holds.accepts {target source : Ty} {v : Value}
    (accepted : target.accepts source = true) (holds : source.Holds v) : target.Holds v := by
  rcases holds with rfl | conforms
  · exact .inl rfl
  · exact .inr (Value.conforms_accepts accepted conforms)

theorem Ty.Holds.listed {ty : Ty} {a : Nat} (holds : ty.Holds (.list a)) (v : Value) :
    ty.Holds v := by
  rcases holds with absurd | conforms
  · cases absurd
  · obtain rfl := Value.eq_any_of_conforms_list conforms
    exact .inr rfl

namespace Operator

def Arithmetical (fault : Fault) : Prop :=
  fault = .divisionByZero ∨ ∃ exponent, fault = .exponentRange exponent

theorem onIntegers_ends {op : Operator} (arithmetic : op.isArithmetic = true ∨ op = .power)
    (m n : Int) :
    Ends Arithmetical (fun v => v.conforms .integer = true) (op.onIntegers m n) := by
  cases op with
  | divide =>
    rw [onIntegers]
    split
    · exact .inl rfl
    · rfl
  | power =>
    rw [onIntegers]
    split
    · rfl
    · exact .inr ⟨n, rfl⟩
  | add => rfl
  | subtract => rfl
  | multiply => rfl
  | _ => rcases arithmetic with h | h <;> cases h

theorem onDecimals_ends {op : Operator} (arithmetic : op.isArithmetic = true) (x y : Decimal) :
    Ends Arithmetical (fun v => v.conforms .decimal = true) (op.onDecimals x y) := by
  cases op with
  | divide =>
    rw [onDecimals]
    split
    · exact .inl rfl
    · rfl
  | add => rfl
  | subtract => rfl
  | multiply => rfl
  | _ => cases arithmetic

theorem arithmetic_ends {op : Operator} (arithmetic : op.isArithmetic = true) {a : Ty}
    {x y : Value} (numeric : a = .integer ∨ a = .decimal) (left : x.conforms a = true)
    (right : y.conforms a = true) :
    Ends Arithmetical (fun v => v.conforms a = true) (op.arithmetic x y) := by
  rcases numeric with rfl | rfl
  · obtain ⟨m, rfl⟩ := Value.exists_integer left
    obtain ⟨n, rfl⟩ := Value.exists_integer right
    exact onIntegers_ends (.inl arithmetic) m n
  · obtain ⟨m, rfl⟩ := Value.exists_decimal left
    obtain ⟨n, rfl⟩ := Value.exists_decimal right
    exact onDecimals_ends arithmetic m n

theorem isString_of_numeric {a : Ty} {x : Value} (numeric : a = .integer ∨ a = .decimal)
    (conforms : x.conforms a = true) : x.isString = false := by
  rcases numeric with rfl | rfl
  · obtain ⟨m, rfl⟩ := Value.exists_integer conforms
    rfl
  · obtain ⟨m, rfl⟩ := Value.exists_decimal conforms
    rfl

theorem compare_ends {a : Ty} {x y : Value} (comparable : Ty.comparable.accepts a = true)
    (plain : a.isPlain = true) (left : x.conforms a = true) (right : y.conforms a = true) :
    Ends Arithmetical (fun _ => True) (x.compare y) := by
  cases a with
  | integer =>
    obtain ⟨m, rfl⟩ := Value.exists_integer left
    obtain ⟨n, rfl⟩ := Value.exists_integer right
    trivial
  | decimal =>
    obtain ⟨m, rfl⟩ := Value.exists_decimal left
    obtain ⟨n, rfl⟩ := Value.exists_decimal right
    trivial
  | character =>
    obtain ⟨m, rfl⟩ := Value.exists_character left
    obtain ⟨n, rfl⟩ := Value.exists_character right
    trivial
  | string =>
    obtain ⟨m, rfl⟩ := Value.exists_string left
    obtain ⟨n, rfl⟩ := Value.exists_string right
    trivial
  | comparable => cases plain
  | _ => cases comparable

theorem truth_ends {x : Value} (conforms : x.conforms .boolean = true) :
    Ends Arithmetical (fun _ => True) x.truth := by
  obtain ⟨b, rfl⟩ := Value.exists_boolean conforms
  trivial

theorem apply_eq_arithmetic {op : Operator} (arithmetic : op.isArithmetic = true) {x y : Value}
    (noString : (x.isString || y.isString) = false) (heap : Heap) :
    op.apply heap x y = op.arithmetic x y := by
  cases op with
  | add => rw [apply, noString, if_neg Bool.false_ne_true]
  | subtract => rfl
  | multiply => rfl
  | divide => rfl
  | _ => cases arithmetic

/-- An operator makes a value of the type that it gives of operands that conform to the types that
it takes, or fails in arithmetic or in comparing them. -/
theorem Takes.apply_conforms {op : Operator} {a b t : Ty} (takes : op.Takes a b t) {x y : Value}
    (left : x.conforms a = true) (right : y.conforms b = true) {allowed : Fault → Prop}
    (arithmetical : ∀ fault, Arithmetical fault → allowed fault)
    (compares : Ty.comparable.accepts a = true → a = b →
      Ends allowed (fun _ => True) (x.compare y))
    (heap : Heap) : Ends allowed (fun v => v.conforms t = true) (op.apply heap x y) := by
  have truth {v : Value} (conforms : v.conforms .boolean = true) :
      Ends allowed (fun _ => True) v.truth := ends_allow (truth_ends conforms) arithmetical
  cases takes with
  | and => exact ends_bind (truth left) fun _ _ => ends_bind (truth right) fun _ _ => rfl
  | or => exact ends_bind (truth left) fun _ _ => ends_bind (truth right) fun _ _ => rfl
  | less comparable => exact ends_bind (compares comparable rfl) fun _ _ => rfl
  | greater comparable => exact ends_bind (compares comparable rfl) fun _ _ => rfl
  | equal => rfl
  | notEqual => rfl
  | join joined =>
    have isString : (x.isString || y.isString) = true := by
      rcases joined with rfl | rfl
      · obtain ⟨s, rfl⟩ := Value.exists_string left
        rfl
      · obtain ⟨s, rfl⟩ := Value.exists_string right
        exact Bool.or_true _
    rw [apply, if_pos isString]
    rfl
  | arithmetic arithmetic numeric =>
    have noString : (x.isString || y.isString) = false := by
      rw [isString_of_numeric numeric left, isString_of_numeric numeric right, Bool.or_false]
    rw [apply_eq_arithmetic arithmetic noString]
    exact ends_allow (arithmetic_ends arithmetic numeric left right) arithmetical
  | power =>
    obtain ⟨m, rfl⟩ := Value.exists_integer left
    obtain ⟨n, rfl⟩ := Value.exists_integer right
    exact ends_allow (onIntegers_ends (.inr rfl) m n) arithmetical

/-- Operands of plain types can be compared. -/
theorem Takes.apply_ends {op : Operator} {a b t : Ty} (takes : op.Takes a b t)
    (plain : a.isPlain = true) (heap : Heap) {x y : Value} (left : x.conforms a = true)
    (right : y.conforms b = true) :
    Ends Arithmetical (fun v => v.conforms t = true) (op.apply heap x y) :=
  takes.apply_conforms left right (fun _ => id)
    (fun comparable same => compare_ends comparable plain left (same ▸ right)) heap

theorem arithmetic_holds {op : Operator} (arithmetic : op.isArithmetic = true) {a : Ty}
    {x y : Value} (numeric : a = .integer ∨ a = .decimal) (left : a.Holds x) (right : a.Holds y) :
    Ends (fun _ => True) a.Holds (op.arithmetic x y) := by
  rcases left with rfl | left
  · trivial
  · rcases right with rfl | right
    · cases x <;> trivial
    · exact ends_mono (ends_allow (arithmetic_ends arithmetic numeric left right)
        fun _ _ => trivial) fun _ => .inr

/-- A sum of what should be a string and of what may be anything. What should be a string and is
none is nil, and nil cannot be added. -/
theorem apply_add_holds {a b : Ty} (joined : a = .string ∨ b = .string) (heap : Heap)
    {x y : Value} (left : a.Holds x) (right : b.Holds y) :
    Ends (fun _ => True) Ty.string.Holds (add.apply heap x y) := by
  rw [apply]
  split
  · exact .inr rfl
  · rename_i noString
    rcases joined with rfl | rfl
    · rcases left with rfl | left
      · trivial
      · obtain ⟨s, rfl⟩ := Value.exists_string left
        exact absurd rfl noString
    · rcases right with rfl | right
      · cases x <;> trivial
      · obtain ⟨s, rfl⟩ := Value.exists_string right
        exact absurd (Bool.or_true _) noString

theorem isString_of_numeric_holds {a : Ty} {x : Value} (numeric : a = .integer ∨ a = .decimal)
    (holds : a.Holds x) : x.isString = false := by
  rcases holds with rfl | conforms
  · rfl
  · exact isString_of_numeric numeric conforms

/-- An operator makes nothing but values of the type that it gives, and nil, of operands of the
types that it takes that may be nil as well. -/
theorem Takes.apply_holds {op : Operator} {a b t : Ty} (takes : op.Takes a b t) (heap : Heap)
    {x y : Value} (left : a.Holds x) (right : b.Holds y) :
    Ends (fun _ => True) t.Holds (op.apply heap x y) := by
  cases takes with
  | and => exact ends_bind (ends_any _) fun _ _ => ends_bind (ends_any _) fun _ _ => .inr rfl
  | or => exact ends_bind (ends_any _) fun _ _ => ends_bind (ends_any _) fun _ _ => .inr rfl
  | less => exact ends_bind (ends_any _) fun _ _ => .inr rfl
  | greater => exact ends_bind (ends_any _) fun _ _ => .inr rfl
  | equal => exact .inr rfl
  | notEqual => exact .inr rfl
  | join joined => exact apply_add_holds joined heap left right
  | arithmetic arithmetic numeric =>
    have noString : (x.isString || y.isString) = false := by
      rw [isString_of_numeric_holds numeric left, isString_of_numeric_holds numeric right,
        Bool.or_false]
    rw [apply_eq_arithmetic arithmetic noString]
    exact arithmetic_holds arithmetic numeric left right
  | power =>
    rcases left with rfl | left
    · trivial
    · obtain ⟨m, rfl⟩ := Value.exists_integer left
      rcases right with rfl | right
      · trivial
      · obtain ⟨n, rfl⟩ := Value.exists_integer right
        exact ends_mono (ends_allow (onIntegers_ends (.inr rfl) m n) fun _ _ => trivial)
          fun _ => .inr

end Operator
end Plc
