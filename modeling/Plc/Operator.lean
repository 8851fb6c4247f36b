/-! The binary operators and how tightly each of them binds. -/
namespace Plc

inductive Operator where
  | and
  | or
  | less
  | greater
  | equal
  | notEqual
  | add
  | subtract
  | multiply
  | divide
  | power
deriving DecidableEq

namespace Operator

def all : List Operator :=
  [and, or, less, greater, equal, notEqual, add, subtract, multiply, divide, power]

theorem mem_all (op : Operator) : op ∈ all := by
  cases op <;> decide

def symbol : Operator → String
  | and => "&&"
  | or => "||"
  | less => "<"
  | greater => ">"
  | equal => "=="
  | notEqual => "!="
  | add => "+"
  | subtract => "-"
  | multiply => "*"
  | divide => "/"
  | power => "^"

def name : Operator → String
  | and => "And"
  | or => "Or"
  | less => "Less"
  | greater => "Greater"
  | equal => "Equal"
  | notEqual => "NotEqual"
  | add => "Add"
  | subtract => "Subtract"
  | multiply => "Multiply"
  | divide => "Divide"
  | power => "Power"

def ofSymbol? (text : String) : Option Operator :=
  all.find? fun op => op.symbol == text

theorem ofSymbol?_symbol (op : Operator) : ofSymbol? op.symbol = some op := by
  cases op <;> decide +kernel

/-- The tier of an operator, the tightest being 0. Operators of one tier associate to the left. -/
def looseness : Operator → Nat
  | multiply | divide | power => 0
  | add | subtract => 1
  | less | greater | equal | notEqual => 2
  | and | or => 3

abbrev tiers : Nat := 4

theorem looseness_lt_tiers (op : Operator) : op.looseness < tiers := by
  cases op <;> decide

end Operator
end Plc
