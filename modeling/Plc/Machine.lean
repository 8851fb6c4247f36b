import Plc.Store

/-! A machine that runs programs. It looks at one thing at a time, with a list of what is pending
behind it and the store. -/
namespace Plc.Machine

inductive Purpose where
  | call (name : String)
  | list

/-- What is left to do: down to `giveBack` with a value, below it behind a statement. -/
inductive Pending where
  | right (op : Operator) (right : Expr)
  | operate (op : Operator) (left : Value)
  /-- The value is the offset of an element to be read. A slot here and below is that of the
  phrase behind which something is left to do. -/
  | element (name : String) (slot : Option Variable)
  | gather (purpose : Purpose) (found : List Value) (more : List Expr)
  | bind (name : String) (mutable : Bool) (slot : Option Variable)
  | assign (name : String) (slot : Option Variable)
  /-- The value is the offset of an element to be assigned to. -/
  | assignOffset (name : String) (slot : Option Variable) (value : Expr)
  | assignElement (name : String) (slot : Option Variable) (offset : Value)
  | choose (thenBody elseBody : List Stmt)
  /-- The value is the condition of a loop. -/
  | whether (condition : Expr) (body : List Stmt)
  | select (cases : List Case)
  /-- The value is that of a case, and the subject what the switch looks at. -/
  | compare (subject : Value) (body : List Stmt) (cases : List Case)
  | discard
  | giveBack
  | rest (statements : List Stmt)
  /-- The body of a loop has ended. -/
  | again (condition : Expr) (body : List Stmt)
  | leaveBlock
  /-- The frames are those of the caller. -/
  | leaveCall (inner : List (Frame Binding Callable))
  | load (globals : List Global) (functions : List Function) (mainNamed : Bool)

inductive Focus where
  | evaluate (e : Expr)
  | execute (s : Stmt)
  | block (statements : List Stmt)
  /-- The statements are to run in a frame of their own. -/
  | enter (statements : List Stmt)
  /-- The function is to run in a frame of its parameters. -/
  | call (f : Function) (arguments : List Value)
  | define (g : Global)
  /-- What of a program is not defined yet, and whether a function of it is called `main`. -/
  | load (globals : List Global) (functions : List Function) (mainNamed : Bool)
  | value (v : Value)
  | done
  | returning (v : Value)
  | failing (fault : Fault)

structure Config where
  focus : Focus
  pending : List Pending
  store : Store

end Plc.Machine
