import Plc.Decimal
import Plc.Operator
import Plc.Ty

/-! Programs as trees. Some nodes have a slot for what an analysis found out about them: the type
of a value, the variable or the function that a name stands for. A tree as it is read has all of
its slots empty. -/
namespace Plc

inductive Literal where
  | nil
  | boolean (value : Bool)
  | character (value : Char)
  | string (value : String)
  | integer (value : Int)
  | decimal (value : Decimal)
deriving DecidableEq

/-- A variable of the analysis. The type of a list variable is that of its elements. -/
structure Variable where
  name : String
  target : String
  ty : Ty
  mutable : Bool
  list : Bool
deriving DecidableEq

/-- A function of the analysis. The target is its name in generated code. -/
structure Signature where
  name : String
  target : String
  parameters : List Ty
  result : Ty
deriving DecidableEq

def Signature.arity (s : Signature) : Nat := s.parameters.length

inductive Expr where
  | literal (value : Literal) (ty : Option Ty)
  | group (inner : Expr) (ty : Option Ty)
  | binary (op : Operator) (left right : Expr) (ty : Option Ty)
  | access (name : String) (slot : Option Variable)
  | element (name : String) (offset : Expr) (slot : Option Variable)
  | call (name : String) (arguments : List Expr) (slot : Option Signature)
  | list (elements : List Expr) (ty : Option Ty)

namespace Expr

def isBinary : Expr → Bool
  | binary .. => true
  | _ => false

def isCall : Expr → Bool
  | call .. => true
  | _ => false

def isList : Expr → Bool
  | list .. => true
  | _ => false

def isPlace : Expr → Bool
  | access .. | element .. => true
  | _ => false

def ty : Expr → Option Ty
  | literal _ ty => ty
  | group _ ty => ty
  | binary _ _ _ ty => ty
  | access _ slot => slot.map (·.ty)
  | element _ _ slot => slot.map (·.ty)
  | call _ _ slot => slot.map (·.result)
  | list _ ty => ty

end Expr

mutual

inductive Stmt where
  | expression (value : Expr)
  | declare (name : String) (typeName : Option String) (value : Option Expr)
      (slot : Option Variable)
  | assign (receiver value : Expr)
  | branch (condition : Expr) (thenBody elseBody : List Stmt)
  | switch (condition : Expr) (cases : List Case)
  | loop (condition : Expr) (body : List Stmt)
  | ret (value : Expr)

inductive Case where
  | on (value : Expr) (body : List Stmt)
  | default (body : List Stmt)

end

structure Global where
  name : String
  typeName : Option String
  mutable : Bool
  value : Option Expr
  slot : Option Variable

def Global.isList (g : Global) : Bool := g.value.any (·.isList)

/-- A function has one type name for each parameter. -/
structure Function where
  name : String
  parameters : List String
  typeNames : List String
  resultName : Option String
  body : List Stmt
  slot : Option Signature

structure Program where
  globals : List Global
  functions : List Function

end Plc
