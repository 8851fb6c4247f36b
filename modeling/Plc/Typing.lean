import Plc.Scope
import Plc.Tree

/-! The rules of typing: which type a literal has, which types an operator takes and gives, and
where a value may go. -/
namespace Plc

abbrev TypeScope := Scope Variable Signature

namespace Ty

def resolve (name : String) : Except Fault Ty :=
  match ofName? name with
  | some ty => .ok ty
  | none => .error (.unknownType name)

def requireAccepts (target source : Ty) : Except Fault Unit :=
  if target.accepts source then .ok () else .error (.mismatch target source)

def requireSame (expected received : Ty) : Except Fault Unit :=
  if expected = received then .ok () else .error (.mismatch expected received)

end Ty

def Literal.fitsInt (value : Int) : Bool :=
  decide (-Int.pow 2 31 ≤ value ∧ value < Int.pow 2 31)

/-- Integers fit in 32 bits, and decimals are no larger than a double. -/
def Literal.type : Literal → Except Fault Ty
  | nil => .ok .nil
  | boolean _ => .ok .boolean
  | character _ => .ok .character
  | string _ => .ok .string
  | integer value => if fitsInt value then .ok .integer else .error (.wideInteger value)
  | decimal value => if value.isFinite then .ok .decimal else .error (.infiniteDecimal value)

def Operator.arithmeticType (op : Operator) (left right : Ty) : Except Fault Ty := do
  if left = .integer ∨ left = .decimal then
    left.requireSame right
    return left
  else throw (.arithmeticType op left)

/-- The type of an operation. A sum with a string on either side is a string. -/
def Operator.type (op : Operator) (left right : Ty) : Except Fault Ty :=
  match op with
  | and | or => do
    Ty.boolean.requireAccepts left
    Ty.boolean.requireAccepts right
    return .boolean
  | less | greater => do
    Ty.comparable.requireAccepts left
    left.requireSame right
    return .boolean
  | equal | notEqual => do
    left.requireSame right
    return .boolean
  | add =>
    if left = .string ∨ right = .string then .ok .string
    else op.arithmeticType left right
  | subtract | multiply | divide => op.arithmeticType left right
  | power => do
    Ty.integer.requireAccepts left
    Ty.integer.requireAccepts right
    return .integer

namespace Expr

def wholeList? : Expr → Option String
  | access _ (some v) => if v.list then some v.name else none
  | _ => none

def valueType (e : Expr) : Except Fault Ty :=
  match e.wholeList? with
  | some name => .error (.unindexedList name)
  | none =>
    match e.ty with
    | some ty => .ok ty
    | none => .error .unannotated

/-- Whether the value of an expression may go where `target` is expected. Only `any` takes a
whole list. -/
def requireFits (target : Ty) (e : Expr) : Except Fault Unit := do
  if target = .any ∧ e.wholeList?.isSome then return ()
  target.requireAccepts (← e.valueType)

def requireAllFit : List Ty → List Expr → Except Fault Unit
  | target :: targets, e :: es => do
    e.requireFits target
    requireAllFit targets es
  | _, _ => .ok ()

/-- The type of a list literal: the given one, or else that of the first element. -/
def elementType (given : Option Ty) (elements : List Expr) : Except Fault Ty := do
  let ty ←
    match given, elements with
    | some ty, _ => pure ty
    | none, first :: _ => first.valueType
    | none, [] => pure .any
  elements.forM fun e => do ty.requireAccepts (← e.valueType)
  return ty

end Expr

def declarationType (name : String) (declared : Option Ty) (value : Option Expr) :
    Except Fault Ty :=
  match declared, value with
  | some ty, some e => do
    e.requireFits ty
    return ty
  | some ty, none => .ok ty
  | none, some e => e.valueType
  | none, none => .error (.untypedDeclaration name)

end Plc
