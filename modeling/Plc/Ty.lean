/-! The types of PLC and what each of them accepts. Nothing but `any` and `comparable` accepts
a type other than itself. -/
namespace Plc

inductive Ty where
  | any
  | comparable
  | nil
  | boolean
  | integer
  | decimal
  | character
  | string
deriving DecidableEq

namespace Ty

def all : List Ty :=
  [any, comparable, nil, boolean, integer, decimal, character, string]

def name : Ty → String
  | any => "Any"
  | comparable => "Comparable"
  | nil => "Nil"
  | boolean => "Boolean"
  | integer => "Integer"
  | decimal => "Decimal"
  | character => "Character"
  | string => "String"

def ofName? (text : String) : Option Ty :=
  all.find? fun ty => ty.name == text

def isComparable : Ty → Bool
  | integer | decimal | character | string => true
  | _ => false

def accepts (target source : Ty) : Bool :=
  target == source ||
    match target with
    | any => true
    | comparable => source.isComparable
    | _ => false

theorem accepts_self (ty : Ty) : ty.accepts ty = true := by
  cases ty <;> rfl

end Ty

/-- What a fault calls the type of a value: one of the types, or a list, for which no type has
a name. -/
inductive Shape where
  | plain (ty : Ty)
  | list
deriving DecidableEq

def Shape.name : Shape → String
  | plain ty => ty.name
  | list => "List"

end Plc
