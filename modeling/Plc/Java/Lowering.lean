import Plc.Java

/-! What a program becomes in Java. Names and types come from the slots; where a slot is empty,
the name as it is written stands in, and the type that can be told without an analysis. -/
namespace Plc

def Variable.targetOr (slot : Option Variable) (name : String) : String :=
  (slot.map (·.target)).getD name

def Signature.targetOr (slot : Option Signature) (name : String) : String :=
  (slot.map (·.target)).getD name

/-- The type of a declaration: from its slot, its type name or its value, in this order. -/
def Ty.declared (slot : Option Variable) (typeName : Option String) (value : Option Expr) : Ty :=
  (slot.map (·.ty)).or ((typeName.bind Ty.ofName?).or (value.bind Expr.ty)) |>.getD .any

mutual

def Expr.toJava : Expr → Java.Expr
  | .literal value _ => .literal value
  | .group inner _ => .group inner.toJava
  | .binary op left right _ =>
    if op = .power then .power left.toJava right.toJava
    else .binary op left.toJava right.toJava
  | .access name slot => .name (Variable.targetOr slot name)
  | .element name offset slot => .element (Variable.targetOr slot name) offset.toJava
  | .call name arguments slot => .call (Signature.targetOr slot name) (Expr.allToJava arguments)
  | .list elements _ => .array (Expr.allToJava elements)

def Expr.allToJava : List Expr → List Java.Expr
  | [] => []
  | e :: es => e.toJava :: Expr.allToJava es

end

mutual

def Stmt.toJava : Stmt → Java.Stmt
  | .expression value => .expression value.toJava
  | .declare name typeName value slot =>
    .declare (Ty.declared slot typeName value) (Variable.targetOr slot name)
      (value.map Expr.toJava)
  | .assign receiver value => .assign receiver.toJava value.toJava
  | .branch condition thenBody elseBody =>
    .branch condition.toJava (Stmt.allToJava thenBody) (Stmt.allToJava elseBody)
  | .switch condition cases => .switch condition.toJava (Case.allToJava cases)
  | .loop condition body => .loop condition.toJava (Stmt.allToJava body)
  | .ret value => .ret value.toJava

def Stmt.allToJava : List Stmt → List Java.Stmt
  | [] => []
  | s :: ss => s.toJava :: Stmt.allToJava ss

/-- A case with a value ends in a break, so that it does not run on into the next one. -/
def Case.toJava : Case → Java.Case
  | .on value body => .on value.toJava (Stmt.allToJava body ++ [.breakOff])
  | .default body => .default (Stmt.allToJava body)

def Case.allToJava : List Case → List Java.Case
  | [] => []
  | c :: cs => c.toJava :: Case.allToJava cs

end

def Global.toJava (g : Global) : Java.Field where
  final := !g.mutable
  ty := Ty.declared g.slot g.typeName g.value
  array := g.isList
  name := Variable.targetOr g.slot g.name
  value := g.value.map Expr.toJava

/-- The types of the parameters and of the result. A type name that is not known stands for
anything as a parameter and for nothing as a result. -/
def Function.javaTypes (f : Function) : List Ty × Ty :=
  match f.slot with
  | some s => (s.parameters, s.result)
  | none =>
    (f.typeNames.map fun name => (Ty.ofName? name).getD .any,
      (f.resultName.bind Ty.ofName?).getD .nil)

def Function.toJava (f : Function) : Java.Method where
  result := f.javaTypes.2
  name := Signature.targetOr f.slot f.name
  parameters := (f.parameters.zip f.javaTypes.1).map fun (name, ty) => (ty, name)
  body := Stmt.allToJava f.body

def Program.toJava (p : Program) : Java.Class where
  fields := p.globals.map Global.toJava
  methods := p.functions.map Function.toJava

end Plc
