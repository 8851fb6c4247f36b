import Plc.Typing.Expr

/-! Filling the slots of globals, functions and programs. A function is in force as soon as its
types are known, in its own body too, and stays so even if the body is at fault; so the scope
behind a step is part of its answer whether or not the step succeeds. -/
namespace Plc

namespace TypeScope

def printSignature : Signature := ⟨"print", "System.out.println", [.any], .nil⟩

def initial : TypeScope := { root := Frame.ofFunctions [(("print", 1), printSignature)] }

end TypeScope

def Global.annotateValue (scope : TypeScope) (declared : Option Ty) :
    Expr → Except Fault Expr
  | .list elements _ => do
    let elements ← Expr.annotateAll scope elements
    return .list elements (some (← Expr.elementType declared elements))
  | value => value.annotate scope

def Global.annotate (scope : TypeScope) (g : Global) : Except Fault (Global × TypeScope) := do
  let declared ← g.typeName.mapM Ty.resolve
  let value ← g.value.mapM (Global.annotateValue scope declared)
  let ty ← declarationType g.name declared value
  let v : Variable := ⟨g.name, g.name, ty, g.mutable, g.isList⟩
  let scope ← scope.defineVariable g.name v
  return ({ g with value := value, slot := some v }, scope)

namespace Function

def signature (f : Function) : Except Fault Signature := do
  let parameters ← f.typeNames.mapM Ty.resolve
  let result ←
    match f.resultName with
    | some name => Ty.resolve name
    | none => pure .nil
  return ⟨f.name, f.name, parameters, result⟩

def parameterVariables (f : Function) (s : Signature) : List (String × Variable) :=
  (f.parameters.zip s.parameters).map fun (name, ty) => (name, .plain name ty true)

def annotateBody (scope : TypeScope) (s : Signature) (f : Function) : Except Fault Function := do
  let frame ← Frame.defineVariables {} (f.parameterVariables s)
  let body ← Stmt.annotateBlock (scope.enter frame) (some s.result) f.body
  return { f with body := body, slot := some s }

def annotate (scope : TypeScope) (f : Function) : Except Fault Function × TypeScope :=
  match f.signature with
  | .error fault => (.error fault, scope)
  | .ok s =>
    match scope.defineFunction f.name s.arity s with
    | .error fault => (.error fault, scope)
    | .ok scope => (f.annotateBody scope s, scope)

end Function

namespace Program

def annotateGlobals (scope : TypeScope) : List Global → Except Fault (List Global) × TypeScope
  | [] => (.ok [], scope)
  | g :: gs =>
    match g.annotate scope with
    | .error fault => (.error fault, scope)
    | .ok (g, scope) =>
      let (gs, scope) := annotateGlobals scope gs
      (gs.map (g :: ·), scope)

def annotateFunctions (scope : TypeScope) :
    List Function → Except Fault (List Function) × TypeScope
  | [] => (.ok [], scope)
  | f :: fs =>
    match f.annotate scope with
    | (.error fault, scope) => (.error fault, scope)
    | (.ok f, scope) =>
      let (fs, scope) := annotateFunctions scope fs
      (fs.map (f :: ·), scope)

def requireMain (scope : TypeScope) : Except Fault Unit := do
  let main ← scope.lookupFunction "main" 0
  Ty.integer.requireAccepts main.result

def annotate (scope : TypeScope) (p : Program) : Except Fault Program × TypeScope :=
  match annotateGlobals scope p.globals with
  | (.error fault, scope) => (.error fault, scope)
  | (.ok globals, scope) =>
    match annotateFunctions scope p.functions with
    | (.error fault, scope) => (.error fault, scope)
    | (.ok functions, scope) =>
      ((requireMain scope).map fun _ => ⟨globals, functions⟩, scope)

end Program
end Plc
