/-! Tokens: what a text is made of, blanks aside. -/
namespace Plc

inductive Token.Kind where
  | identifier
  | integer
  | decimal
  | character
  | string
  | operator
deriving DecidableEq

/-- A piece of text as it is written, escapes included, with the number of characters before
it. -/
structure Token where
  kind : Token.Kind
  literal : String
  index : Nat
deriving DecidableEq

namespace Token

def stop (t : Token) : Nat := t.index + t.literal.length

def isKeyword (t : Token) (word : String) : Bool :=
  t.kind == .identifier && t.literal == word

def isOperator (t : Token) (symbol : String) : Bool :=
  t.kind == .operator && t.literal == symbol

end Token
end Plc
