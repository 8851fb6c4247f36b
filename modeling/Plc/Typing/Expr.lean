import Plc.Typing

/-! Filling the slots of expressions and statements. Whatever the slots held before is not looked
at. Statements are taken in order, each in the scope that those before it have left. -/
namespace Plc

mutual

def Expr.annotate (scope : TypeScope) : Expr → Except Fault Expr
  | .literal value _ => do
    return .literal value (some (← value.type))
  | .group inner _ =>
    if inner.isBinary then do
      let inner ← inner.annotate scope
      return .group inner (some (← inner.valueType))
    else .error .groupedPrimary
  | .binary op left right _ => do
    let left ← left.annotate scope
    let right ← right.annotate scope
    let leftType ← left.valueType
    let rightType ← right.valueType
    return .binary op left right (some (← op.type leftType rightType))
  | .access name _ => do
    return .access name (some (← scope.lookupVariable name))
  | .element name offset _ => do
    let offset ← offset.annotate scope
    Ty.integer.requireAccepts (← offset.valueType)
    return .element name offset (some (← scope.lookupVariable name))
  | .call name arguments _ => do
    let arguments ← Expr.annotateAll scope arguments
    let f ← scope.lookupFunction name arguments.length
    requireAllFit f.parameters arguments
    return .call name arguments (some f)
  | .list elements _ => do
    let elements ← Expr.annotateAll scope elements
    return .list elements (some (← elementType none elements))

def Expr.annotateAll (scope : TypeScope) : List Expr → Except Fault (List Expr)
  | [] => .ok []
  | e :: es => do
    let e ← e.annotate scope
    return e :: (← Expr.annotateAll scope es)

end

def Expr.annotateCondition (scope : TypeScope) (e : Expr) : Except Fault Expr := do
  let e ← e.annotate scope
  Ty.boolean.requireAccepts (← e.valueType)
  return e

def Variable.plain (name : String) (ty : Ty) (mutable : Bool) : Variable :=
  ⟨name, name, ty, mutable, false⟩

mutual

/-- A statement with its slots filled, and the scope behind it. A result may only be given where
a type for it is known. -/
def Stmt.annotate (scope : TypeScope) (result : Option Ty) :
    Stmt → Except Fault (Stmt × TypeScope)
  | .expression value =>
    if value.isCall then do
      return (.expression (← value.annotate scope), scope)
    else .error .idleExpression
  | .declare name typeName value _ => do
    let declared ← typeName.mapM Ty.resolve
    let value ← value.mapM (Expr.annotate scope)
    let v := Variable.plain name (← declarationType name declared value) true
    let scope ← scope.defineVariable name v
    return (.declare name typeName value (some v), scope)
  | .assign receiver value =>
    if receiver.isPlace then do
      let receiver ← receiver.annotate scope
      let value ← value.annotate scope
      value.requireFits (← receiver.valueType)
      return (.assign receiver value, scope)
    else .error .assignmentReceiver
  | .branch condition thenBody elseBody => do
    let condition ← condition.annotateCondition scope
    if thenBody.isEmpty then throw .emptyThen
    let thenBody ← Stmt.annotateBlock (scope.enter {}) result thenBody
    let elseBody ← Stmt.annotateBlock (scope.enter {}) result elseBody
    return (.branch condition thenBody elseBody, scope)
  | .switch condition cases => do
    let condition ← condition.annotate scope
    let ty ← condition.valueType
    return (.switch condition (← Case.annotateAll scope result ty cases), scope)
  | .loop condition body => do
    let condition ← condition.annotateCondition scope
    return (.loop condition (← Stmt.annotateBlock (scope.enter {}) result body), scope)
  | .ret value =>
    match result with
    | none => .error .returnOutsideFunction
    | some ty => do
      let value ← value.annotate scope
      value.requireFits ty
      return (.ret value, scope)

def Stmt.annotateBlock (scope : TypeScope) (result : Option Ty) :
    List Stmt → Except Fault (List Stmt)
  | [] => .ok []
  | s :: ss => do
    let (s, scope) ← s.annotate scope result
    return s :: (← Stmt.annotateBlock scope result ss)

def Case.annotate (scope : TypeScope) (result : Option Ty) (ty : Ty) (last : Bool) :
    Case → Except Fault Case
  | .on value body =>
    if last then .error .missingDefault
    else do
      let value ← value.annotate scope
      ty.requireSame (← value.valueType)
      return .on value (← Stmt.annotateBlock (scope.enter {}) result body)
  | .default body =>
    if last then do
      return .default (← Stmt.annotateBlock (scope.enter {}) result body)
    else .error .earlyDefault

def Case.annotateAll (scope : TypeScope) (result : Option Ty) (ty : Ty) :
    List Case → Except Fault (List Case)
  | [] => .error .missingDefault
  | c :: cs => do
    let c ← c.annotate scope result ty cs.isEmpty
    if cs.isEmpty then return [c]
    else return c :: (← Case.annotateAll scope result ty cs)

end

end Plc
