import Plc.Tree

/-! As much of Java as programs are rendered in. Types stand for their Java counterparts. -/
namespace Plc

def Ty.javaName : Ty → String
  | any => "Object"
  | comparable => "Comparable"
  | nil => "Void"
  | boolean => "boolean"
  | integer => "int"
  | decimal => "double"
  | character => "char"
  | string => "String"

namespace Java

/-- There is no operator for powers: they are calls of a library method. -/
inductive Expr where
  | literal (value : Literal)
  | group (inner : Expr)
  | binary (op : Operator) (left right : Expr)
  | power (base exponent : Expr)
  | name (id : String)
  | element (id : String) (offset : Expr)
  | call (id : String) (arguments : List Expr)
  | array (elements : List Expr)

mutual

inductive Stmt where
  | expression (value : Expr)
  | declare (ty : Ty) (name : String) (value : Option Expr)
  | assign (receiver value : Expr)
  | branch (condition : Expr) (thenBody elseBody : List Stmt)
  | switch (condition : Expr) (cases : List Case)
  | loop (condition : Expr) (body : List Stmt)
  | ret (value : Expr)
  | breakOff

inductive Case where
  | on (value : Expr) (body : List Stmt)
  | default (body : List Stmt)

end

structure Field where
  final : Bool
  ty : Ty
  array : Bool
  name : String
  value : Option Expr

structure Method where
  result : Ty
  name : String
  parameters : List (Ty × String)
  body : List Stmt

structure Class where
  fields : List Field
  methods : List Method

end Java
end Plc
