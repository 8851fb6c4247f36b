import Plc.Decimal.Text
import Plc.Operator
import Plc.Ty

/-! What can be wrong with a program once it is read, before it runs or while it runs. -/
namespace Plc

inductive Fault where
  | typeMismatch (expected received : Shape)
  | undefinedVariable (name : String)
  | variableAlreadyDefined (name : String)
  | undefinedFunction (name : String) (arity : Nat)
  | functionAlreadyDefined (name : String) (arity : Nat)
  | immutableAssignment (name : String)
  | indexOutOfBounds (index : Int) (length : Nat)
  | divisionByZero
  | unknownType (name : String)
  | untypedDeclaration (name : String)
  | unindexedList (name : String)
  | unannotated
  | wideInteger (value : Int)
  | infiniteDecimal (value : Decimal)
  | idleExpression
  | assignmentReceiver
  | emptyThen
  | returnOutsideFunction
  | missingDefault
  | earlyDefault
  | groupedPrimary
  | arithmeticType (op : Operator) (received : Ty)
  | operands (op : Operator) (left right : Shape)
  | exponentRange (exponent : Int)
  | notAList (name : String)
  | mainArity
  | outputFull (report : String)
deriving DecidableEq

namespace Fault

def mismatch (expected received : Ty) : Fault :=
  typeMismatch (.plain expected) (.plain received)

def message : Fault → String
  | typeMismatch expected received =>
    s!"Expected type {expected.name}, received {received.name}."
  | undefinedVariable name => s!"The variable {name} is not defined in this scope."
  | variableAlreadyDefined name => s!"The variable {name} is already defined in this scope."
  | undefinedFunction name arity =>
    s!"The function {name}/{arity} is not defined in this scope."
  | functionAlreadyDefined name arity =>
    s!"The function {name}/{arity} is already defined in this scope."
  | immutableAssignment name => s!"Immutable variable {name} cannot be reassigned."
  | indexOutOfBounds index length =>
    s!"Index {index} is out of bounds for a list of length {length}."
  | divisionByZero => "Division by zero."
  | unknownType name => s!"Unknown type {name}."
  | untypedDeclaration name => s!"Type not specified for {name}."
  | unindexedList name => s!"The list {name} must be indexed."
  | unannotated => "Expression was not analyzed."
  | wideInteger value => s!"Integer literal {value} does not fit in 32 bits."
  | infiniteDecimal value => s!"Decimal literal {value.toText} is out of range."
  | idleExpression => "Expression statements must be function calls."
  | assignmentReceiver => "Assignment receivers must be variables or list elements."
  | emptyThen => "IF statements require at least one statement before ELSE."
  | returnOutsideFunction => "RETURN is only allowed inside a function."
  | missingDefault => "SWITCH statements must end with a DEFAULT case."
  | earlyDefault => "The DEFAULT case must be the last case of a SWITCH."
  | groupedPrimary => "Grouped expressions must contain a binary expression."
  | arithmeticType op received =>
    s!"Operator {op.symbol} requires Integer or Decimal operands, received {received.name}."
  | operands op left right =>
    s!"Operator {op.symbol} cannot be applied to {left.name} and {right.name}."
  | exponentRange exponent =>
    s!"Exponent {exponent} must be a non-negative 32-bit integer."
  | notAList name => s!"The variable {name} is not a list."
  | mainArity => "Invalid main arity"
  | outputFull report => s!"Failed to write output: {report}"

end Fault
end Plc
