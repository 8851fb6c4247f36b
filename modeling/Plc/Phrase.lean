import Plc.Tree

/-! What can be read, analysed, run or rendered on its own: a program or a part of one. -/
namespace Plc

inductive Phrase.Kind where
  | program
  | global
  | function
  | statement
  | expression
deriving DecidableEq

inductive Phrase where
  | program (p : Program)
  | global (g : Global)
  | function (f : Function)
  | statement (s : Stmt)
  | expression (e : Expr)

end Plc
